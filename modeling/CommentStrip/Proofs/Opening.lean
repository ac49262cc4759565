import CommentStrip.Proofs.Simulation
import Mathlib.Data.List.DropRight

/-!
# How literals open

A literal has a prefix exactly if the name right before its quotation mark is one as a whole. A name
that only ends like a prefix is code: once its first character is scanned as code, no prefix begins
inside it. And where the mark stands three times, in a language that triples it, the literal opens with
all three.
-/
namespace CommentStrip

namespace Text

/-- The name that a text ends with, if it ends with one. -/
def lastName (text : Text) : Text :=
  text.rtakeWhile isNameChar

theorem lastName_append {front word : Text} (names : ∀ c ∈ word, isNameChar c = true)
    (stops : ∀ c ∈ front.getLast?, isNameChar c = false) : lastName (front ++ word) = word := by
  have run : (word.reverse ++ front.reverse).takeWhile isNameChar = word.reverse := by
    refine takeWhile_append_of_stops ?_ ?_
    · simpa using names
    · rwa [List.head?_reverse]
  rw [lastName, List.rtakeWhile, List.reverse_append, run, List.reverse_reverse]

theorem exists_append_lastName (text : Text) :
    ∃ front, text = front ++ text.lastName ∧ (∀ c ∈ text.lastName, isNameChar c = true)
      ∧ ∀ c ∈ front.getLast?, isNameChar c = false := by
  refine ⟨text.rdropWhile isNameChar, List.rdropWhile_append_rtakeWhile.symm,
    fun c => List.mem_rtakeWhile_imp, ?_⟩
  intro c last
  obtain ⟨nonempty, rfl⟩ := List.mem_getLast?_eq_getLast last
  simpa using List.rdropWhile_last_not isNameChar text nonempty

end Text

namespace Language

/-- Whether the word is a prefix of string literals, in any case of its letters. -/
def isStringPrefix (language : Language) (word : Text) : Bool :=
  !word.isEmpty && language.stringPrefixes.any (word.sameIgnoringCase ·)

/-- How the literal `word` opens between the text `before` it and the text `after` it. -/
structure OpenedBy (language : Language) (before word after : Text) (opening : Opening) : Prop where
  known : opening.quote ∈ language.quotes
  starts : opening.lead ++ opening.quote.opener <+: word
  /-- It is the opening that the scan chooses, and read with it the literal ends where it does. -/
  chosen : Opening.longest? (language.openingsAt before.getLast? (word ++ after)) = some opening
  read : language.readOpened opening (word ++ after) = .ok word.length
  /-- The literal starts with the whole name before its quotation mark, or at the mark. -/
  lead : opening.lead =
    let name := Text.lastName (before ++ opening.lead)
    if language.isStringPrefix name then name else []
  tripled : ∀ quote ∈ language.quotes, quote.opener.length = 3 →
    opening.lead ++ quote.opener <+: word ++ after → opening.quote = quote

variable {language : Language} {previous : Option Char} {text : Text} {opening : Opening}

theorem isStringPrefix_iff {word : Text} : language.isStringPrefix word = true
    ↔ word ≠ [] ∧ ∃ listed ∈ language.stringPrefixes, word.sameIgnoringCase listed = true := by
  simp [isStringPrefix]

/-- A prefix that stands in front of a quotation mark, and does not go on a name, opens a literal. -/
theorem mem_openingsAt_of_isStringPrefix {word rest : Text} {quote : Quote}
    (known : language.isStringPrefix word = true) (free : previous.any isNameChar = false)
    (listed : quote ∈ language.quotes) (opens : quote.opener <+: rest) :
    ⟨word, quote⟩ ∈ language.openingsAt previous (word ++ rest) := by
  obtain ⟨-, listedWord, member, same⟩ := isStringPrefix_iff.mp known
  have size : word.length = listedWord.length := by
    simpa only [List.length_map] using congrArg List.length (beq_iff_eq.mp same)
  refine mem_openingsAt_iff.mpr ⟨mem_leadsAt_iff.mpr (.inr ⟨free, listedWord, member, ?_, same⟩),
    listed, ?_⟩
  · rw [← size, List.take_left]
  · rwa [List.drop_left, List.isPrefixOf_iff_prefix]

namespace Edit

variable {source front word : Text} {pieces earlier later : List Piece} {piece next : Piece}

/-- What ends with a name, other than at the end of its line, is code. -/
theorem code_of_isNameChar (edit : language.Edit source pieces)
    (noRegex : language.regexLiterals = false)
    (split : pieces = earlier ++ piece :: next :: later) (same : next.span.kind ≠ .newline) {c : Char}
    (last : piece.span.text.getLast? = some c) (name : isNameChar c = true) :
    piece.span.kind = .code := by
  have solid := not_isBlankChar_of_isNameChar name
  obtain ⟨-, point, word, reads, final⟩ := edit.exists_lexemes split
  rw [← final] at last
  cases kind : piece.span.kind with
  | code => rfl
  | lineComment => exact absurd (edit.newline_of_line split kind) same
  | newline =>
    rw [kind] at reads
    simp [isBlankChar, reads.newline c (List.mem_of_getLast? last)] at solid
  | whitespace =>
    rw [kind] at reads
    simp [isBlankChar, reads.whitespace c (List.mem_of_getLast? last)] at solid
  | blockComment =>
    rw [kind] at reads
    obtain ⟨-, body, rfl, -⟩ := reads.block edit.conventional
    rw [← List.cons_append, ← List.cons_append, List.getLast?_append] at last
    obtain rfl : '/' = c := by simpa using last
    exact absurd name (by decide)
  | stringLiteral =>
    rw [kind] at reads
    obtain ⟨d, ends, ⟨mark, -⟩ | ⟨regexes, -⟩⟩ := reads.literal_last edit.conventional
    · obtain rfl : d = c := Option.some.inj (ends.symm.trans last)
      simp [not_isNameChar_of_isExpressionQuote mark] at name
    · simp [noRegex] at regexes

/-- The name before a literal is the end of one span of code. -/
theorem exists_code_of_name (edit : language.Edit source pieces)
    (noRegex : language.regexLiterals = false) (split : pieces = earlier ++ next :: later)
    (same : next.span.kind ≠ .newline) (whole : Piece.textOf earlier = front ++ word)
    (nonempty : word ≠ []) (names : ∀ c ∈ word, isNameChar c = true) :
    ∃ before piece start, earlier = before ++ [piece] ∧ piece.span.kind = .code
      ∧ piece.span.text = start ++ word ∧ front = Piece.textOf before ++ start := by
  cases earlier using List.reverseRecOn with
  | nil => exact absurd (List.append_eq_nil_iff.mp whole.symm).2 nonempty
  | append_singleton before last =>
    have filled : last.span.text ≠ [] := edit.text_ne_nil (by simp [split])
    have ends : last.span.text.getLast? = some (word.getLast nonempty) := by
      rw [← Piece.getLast?_textOf_concat filled before, whole,
        List.getLast?_append_of_ne_nil _ nonempty, List.getLast?_eq_some_getLast]
    rw [List.append_assoc, List.singleton_append] at split
    have code := edit.code_of_isNameChar noRegex split same ends (names _ (List.getLast_mem nonempty))
    rw [Piece.textOf_append, Piece.textOf_cons, Piece.textOf_nil, List.append_nil] at whole
    rcases List.append_eq_append_iff.mp whole with ⟨start, rfl, text⟩ | ⟨more, text, rfl⟩
    · exact ⟨before, last, start, rfl, code, text, rfl⟩
    · -- a longer name would go on into the code of another span
      cases more using List.reverseRecOn with
      | nil => exact ⟨before, last, [], rfl, code, rfl, by simpa using text.symm⟩
      | append_singleton more c =>
        cases before using List.reverseRecOn with
        | nil => simp at text
        | append_singleton others prev =>
          have filled : prev.span.text ≠ [] := edit.text_ne_nil (by simp [split])
          have ends : prev.span.text.getLast? = some c := by
            rw [← Piece.getLast?_textOf_concat filled others, text, ← List.append_assoc,
              List.getLast?_concat]
          rw [List.append_assoc, List.singleton_append] at split
          have other := edit.code_of_isNameChar noRegex split (by simp [code]) ends
            (names c (by simp))
          exact absurd code (edit.next_of_code split other)

/-- No prefix is left outside of the literal that it would be the prefix of. -/
theorem not_isStringPrefix (edit : language.Edit source pieces)
    (noRegex : language.regexLiterals = false) (split : pieces = earlier ++ next :: later)
    (same : next.span.kind ≠ .newline) {quote : Quote} (known : quote ∈ language.quotes)
    (opens : quote.opener <+: Piece.textOf (next :: later)) :
    language.isStringPrefix (Piece.textOf earlier).lastName = false := by
  by_contra prefixed
  rw [Bool.not_eq_false] at prefixed
  obtain ⟨front, whole, names, stops⟩ := Text.exists_append_lastName (Piece.textOf earlier)
  generalize (Piece.textOf earlier).lastName = word at prefixed whole names
  have nonempty := (isStringPrefix_iff.mp prefixed).1
  obtain ⟨before, piece, start, rfl, code, text, rfl⟩ :=
    edit.exists_code_of_name noRegex split same whole nonempty names
  -- where the name starts, the literal would have opened
  obtain ⟨c, rest, rfl⟩ := List.exists_cons_of_ne_nil nonempty
  rw [List.append_assoc, List.singleton_append] at split
  cases (edit.readsAt_code split code text).takes with
  | code unquoted =>
    have free : ((Piece.pointAfter before).pastAll
        (Token.lexemes ⟨.code, start⟩)).cursor.previous.any isNameChar = false := by
      rw [Point.previous_pastAll, Token.textOf_lexemes, Piece.previous_pointAfter, ← List.getLast?_append,
        Option.any_eq_false]
      simpa using stops
    have opening := mem_openingsAt_of_isStringPrefix prefixed free known opens
    have none := edit.conventional.quotedAt?_eq_none.mp unquoted
    rw [List.singleton_append] at none
    rw [List.cons_append, none] at opening
    exact absurd opening List.not_mem_nil

/-- A literal opens with the whole name before its quotation mark, or with the mark. -/
theorem lead_eq (edit : language.Edit source pieces) (noRegex : language.regexLiterals = false)
    {mark : Char} {body : Text} (split : pieces = earlier ++ piece :: later)
    (literal : piece.span.kind = .stringLiteral)
    (quoted : language.Quoted (Piece.textOf earlier).getLast? piece.span.text (Piece.textOf later)
      opening mark body) :
    opening.lead =
      let name := Text.lastName (Piece.textOf earlier ++ opening.lead)
      if language.isStringPrefix name then name else [] := by
  rcases mem_leadsAt_iff.mp quoted.lead_mem with none | ⟨free, listed, member, -, same⟩
  · have opens : opening.quote.opener <+: Piece.textOf (piece :: later) := by
      rw [Piece.textOf_cons, quoted.whole, none, List.nil_append, List.append_assoc]
      exact List.prefix_append _ _
    -- a name that is a prefix would have been taken into the literal
    have outside := edit.not_isStringPrefix noRegex split (by simp [literal]) quoted.known opens
    simp [none, outside]
  · have name : Text.lastName (Piece.textOf earlier ++ opening.lead) = opening.lead := by
      apply Text.lastName_append
      · exact fun c letter => isNameChar_of_isAlpha (quoted.letters c letter)
      · simpa [Option.any_eq_false] using free
    have filled : opening.lead ≠ [] := by
      intro empty
      rw [empty] at same
      exact (edit.conventional.prefixes listed member).1
        (by simpa [Text.sameIgnoringCase] using same)
    have prefixed := isStringPrefix_iff.mpr ⟨filled, listed, member, same⟩
    rw [name]
    exact (if_pos prefixed).symm

end Edit

section Quoted

variable {word after body : Text} {mark : Char}

/-- A literal is read with the opening that the scan chooses. -/
theorem Quoted.readOpened (conventional : language.Conventional)
    (quoted : language.Quoted previous word after opening mark body) :
    language.readOpened opening (word ++ after) = .ok word.length := by
  have read := (quoted.readString_iff conventional fun _ => rfl).mpr quoted.not_tripledBy
  rwa [readString, quoted.longest] at read

/-- Where three marks stand, the literal opens with three of them. -/
theorem Quoted.opener_eq (conventional : language.Conventional)
    (quoted : language.Quoted previous word after opening mark body) {quote : Quote}
    (known : quote ∈ language.quotes) (three : quote.opener.length = 3)
    (opens : opening.lead ++ quote.opener <+: word ++ after) :
    opening.quote.opener = quote.opener := by
  obtain ⟨first, -, shape, -⟩ := conventional.quote_shape known
  have tripled : quote.opener = [first, first, first] :=
    shape.resolve_left fun single => by simp [single] at three
  obtain ⟨rest, whole⟩ := opens
  rw [List.append_assoc] at whole
  -- both begin with the same mark
  obtain rfl : first = mark := by
    obtain ⟨tail, made, -⟩ := quoted.exists_tail
    rw [made, List.append_assoc, List.append_cancel_left_eq, tripled] at whole
    exact (List.cons.inj whole).1
  have member : ⟨opening.lead, quote⟩ ∈ language.openingsAt previous (word ++ after) := by
    refine mem_openingsAt_iff.mpr ⟨quoted.lead_mem, known, ?_⟩
    rw [← whole, List.drop_left, List.isPrefixOf_iff_prefix]
    exact List.prefix_append _ _
  -- and the mark on its own would be shorter than what the scan could choose
  have longest := (Opening.longest?_eq_some quoted.longest).2 _ member
  rcases quoted.opener with single | same
  · have bytes := first.utf8Size_pos
    simp only [Opening.byteLength, tripled, single, Text.byteLength_cons, Text.byteLength_nil]
      at longest
    omega
  · rw [same, tripled]

end Quoted

section Source

variable {source : Text} {earlier later : List Span} {span : Span}

/-- Tripled quotes and single ones are told apart by what opens them. -/
private theorem quote_eq_of_opener : ∀ quote ∈ Quote.tripled, ∀ other ∈ Quote.tripled,
    quote.opener = other.opener → quote = other := by
  decide

/--
A string literal of Python or Dart has the prefix that the name before its quotation mark makes up, and
none if this name is no prefix as a whole. It opens with the mark three times where this stands there.
-/
theorem literal_opened (known : language = .python ∨ language = .dart)
    (scanned : language.spans source = .ok (earlier ++ span :: later))
    (literal : span.kind = .stringLiteral) :
    source = earlier.flatMap Span.text ++ (span.text ++ later.flatMap Span.text)
      ∧ ∃ opening, language.OpenedBy (earlier.flatMap Span.text) span.text
        (later.flatMap Span.text) opening := by
  have registered : language ∈ registered := by
    rcases known with rfl | rfl <;> simp [Language.registered]
  have noRegex : language.regexLiterals = false := by
    rcases known with rfl | rfl <;> rfl
  have quotes : language.quotes = Quote.tripled := by
    rcases known with rfl | rfl <;> rfl
  refine ⟨text_of_spans scanned, ?_⟩
  have edit := edit_of_spans registered scanned
  have conventional := edit.conventional
  have split : (earlier ++ span :: later).map Piece.kept
      = earlier.map Piece.kept ++ Piece.kept span :: later.map Piece.kept := List.map_append ..
  have reads := edit.readsAt split (by simp [Piece.kept, literal])
  rw [Span.token, Piece.kept, literal] at reads
  rcases reads.literal conventional with ⟨opening, mark, body, quoted⟩ | ⟨⟨regexes, -⟩, -⟩
  case inr => simp [noRegex] at regexes
  rw [Piece.previous_pointAfter] at quoted
  have lead := edit.lead_eq noRegex split literal quoted
  rw [Piece.textOf_map_kept] at lead quoted
  rw [Piece.textOf_map_kept] at quoted
  refine ⟨opening, quoted.known, ?starts, quoted.longest, quoted.readOpened conventional, lead,
    ?tripled⟩
  case starts => exact ⟨body ++ opening.quote.closer, by rw [quoted.whole]; simp⟩
  case tripled =>
    intro quote member three opens
    exact quote_eq_of_opener _ (quotes ▸ quoted.known) quote (quotes ▸ member)
      (quoted.opener_eq conventional member three opens)

/-- A name that only ends like a prefix, a prefix behind a literal, and three marks that close it. -/
theorem literal_opened_with_prefix :
    ∃ earlier later, python.spans "herb'x'Rb'''y'''".toList
        = .ok (earlier ++ ⟨.stringLiteral, 7, 16, 1, 8, "Rb'''y'''".toList⟩ :: later)
      ∧ "herb'x'Rb'''y'''".toList
        = earlier.flatMap Span.text ++ ("Rb'''y'''".toList ++ later.flatMap Span.text)
      ∧ ∃ opening, python.OpenedBy "herb'x'".toList "Rb'''y'''".toList [] opening := by
  have scanned : python.spans "herb'x'Rb'''y'''".toList
      = .ok ([⟨.code, 0, 4, 1, 1, "herb".toList⟩, ⟨.stringLiteral, 4, 7, 1, 5, "'x'".toList⟩]
        ++ ⟨.stringLiteral, 7, 16, 1, 8, "Rb'''y'''".toList⟩ :: []) := by
    rw [spans_eq_lexWithin]
    decide +kernel
  exact ⟨_, _, scanned, literal_opened (.inl rfl) scanned rfl⟩

end Source

end Language

end CommentStrip
