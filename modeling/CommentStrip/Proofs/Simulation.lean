import CommentStrip.Proofs.Weaving

/-!
# Two scans side by side

The scan of a source text and the scan of the rewritten text are followed from one kept piece to
the next. Before each kept piece the two allow the same constructs, and after it too, although
comments and blanks were passed on one side only. A kept piece is thus read again exactly if it does
not fuse with what is now written after it.
-/
namespace CommentStrip

section Runs

private theorem endsWithWord_iff {run keyword : Text}
    (letters : ∀ c ∈ keyword, isTokenWord c = true) :
    endsWithWord run keyword = true ↔ run.takeWhile isTokenWord = keyword.reverse := by
  simp only [endsWithWord, Bool.and_eq_true, List.isPrefixOf_iff_prefix, Bool.not_eq_true']
  constructor
  · rintro ⟨⟨rest, rfl⟩, ends⟩
    rw [← List.length_reverse, List.drop_left] at ends
    exact takeWhile_append_of_stops (by simpa using letters) (by simpa [Option.any_eq_false] using ends)
  · intro word
    obtain ⟨rest, whole, -, stops⟩ := exists_append_takeWhile isTokenWord run
    rw [word] at whole
    rw [whole, ← List.length_reverse, List.drop_left]
    exact ⟨List.prefix_append _ _, by simpa [Option.any_eq_false] using stops⟩

private theorem isTokenWord_of_mem_keyword :
    ∀ keyword ∈ expressionKeywords, ∀ c ∈ keyword, isTokenWord c = true := by
  have all : expressionKeywords.all (·.all isTokenWord) = true := by decide +kernel
  simpa only [List.all_eq_true] using all

/-- A run of code that ends with a word is judged by the whole of this word. -/
theorem regexMayFollow_cons (c : Char) (rest : Text) : regexMayFollow (c :: rest)
    = if isTokenWord c then
        expressionKeywords.contains ((c :: rest).takeWhile isTokenWord).reverse
      else c != ')' && c != ']' := by
  have words : expressionKeywords.any (endsWithWord (c :: rest))
      = expressionKeywords.contains ((c :: rest).takeWhile isTokenWord).reverse := by
    rw [List.contains_eq_any_beq, Bool.eq_iff_iff, List.any_eq_true, List.any_eq_true]
    refine exists_congr fun keyword => and_congr_right fun known => ?_
    rw [endsWithWord_iff (isTokenWord_of_mem_keyword keyword known), beq_iff_eq,
      List.reverse_eq_iff]
  rw [regexMayFollow, words]

/-- A run of code keeps its meaning if it does not make a longer word with what comes before. -/
theorem regexMayFollow_append {run before : Text} (nonempty : run ≠ [])
    (apart : run.getLast?.any isTokenWord = true → before.head?.any isTokenWord = false) :
    regexMayFollow (run ++ before) = regexMayFollow run := by
  have word : (run ++ before).takeWhile isTokenWord = run.takeWhile isTokenWord := by
    by_cases all : ∀ c ∈ run, isTokenWord c = true
    · have stops := apart (by
        rw [List.getLast?_eq_some_getLast nonempty]
        exact all _ (List.getLast_mem nonempty))
      rw [takeWhile_append_of_stops all (by simpa [Option.any_eq_false] using stops),
        List.takeWhile_eq_self_iff.mpr all]
    · -- the word ends inside the run
      rw [List.takeWhile_append, if_neg]
      intro same
      exact all (List.takeWhile_eq_self_iff.mp ((List.takeWhile_prefix _).eq_of_length same))
  obtain ⟨c, rest, rfl⟩ := List.exists_cons_of_ne_nil nonempty
  rw [List.cons_append] at word ⊢
  rw [regexMayFollow_cons, regexMayFollow_cons, word]

end Runs

namespace Point

variable {point : Point} {tokens : List Token}

theorem previous_pastAll : (point.pastAll tokens).cursor.previous
    = (Token.textOf tokens).getLast?.or point.cursor.previous := by
  induction tokens generalizing point with
  | nil => rfl
  | cons token rest ih =>
    rw [pastAll_cons, ih, Token.textOf_cons, List.getLast?_append, Option.or_assoc]
    rfl

/-- Blanks and comments do not change what a slash means. -/
theorem regexAllowed_pastAll (trivia : ∀ token ∈ tokens, token.kind.isTrivia = true) :
    (point.pastAll tokens).cursor.regexAllowed = point.cursor.regexAllowed := by
  induction tokens generalizing point with
  | nil => rfl
  | cons token rest ih =>
    rw [pastAll_cons, ih fun other member => trivia other (List.mem_cons_of_mem _ member)]
    have here := trivia token List.mem_cons_self
    cases kind : token.kind <;>
      simp_all [past, Cursor.after, Kind.isTrivia, Kind.isBlank, Kind.isComment]

/-- The run of code ends where something else was read. -/
theorem run_pastAll (other : ∀ token ∈ tokens.getLast?, token.kind ≠ .code) :
    (point.pastAll tokens).run = if tokens = [] then point.run else [] := by
  cases tokens using List.reverseRecOn with
  | nil => rfl
  | append_singleton earlier last =>
    have kind := other last (by simp)
    simp [past, codeRunAfter, kind]

theorem run_pastAll_code (text : Text) :
    (point.pastAll (Token.lexemes ⟨.code, text⟩)).run = text.reverse ++ point.run := by
  rw [Token.lexemes_of_code]
  induction text generalizing point with
  | nil => rfl
  | cons c rest ih => simp [ih, past, codeRunAfter]

theorem regexAllowed_pastAll_code {text : Text} (nonempty : text ≠ []) :
    (point.pastAll (Token.lexemes ⟨.code, text⟩)).cursor.regexAllowed
      = regexMayFollow (text.reverse ++ point.run) := by
  have run : (point.pastAll (Token.lexemes ⟨.code, text⟩)).run = _ := run_pastAll_code text
  rw [Token.lexemes_of_code] at run ⊢
  cases text using List.reverseRecOn with
  | nil => exact absurd rfl nonempty
  | append_singleton earlier last =>
    rw [← run]
    simp [past, Cursor.after]

end Point

theorem Piece.previous_pointAfter (pieces : List Piece) :
    (pointAfter pieces).cursor.previous = (textOf pieces).getLast? := by
  rw [pointAfter, Point.previous_pastAll, textOf_lexemes]
  exact Option.or_none

namespace Language

/-- After the kept piece that comes last, or at the start, the scan of the rewritten text has seen
the same as that of the source, apart from code before that piece. -/
structure Departs (language : Language) (earlier : List Piece) (target : Point) : Prop where
  previous : target.cursor.previous = (Piece.pointAfter earlier).cursor.previous
  slash : language.regexLiterals = true →
    target.cursor.regexAllowed = (Piece.pointAfter earlier).cursor.regexAllowed
  run : target.run ≠ [] → target.run.head? = target.cursor.previous
    ∧ ∃ piece ∈ earlier.getLast?, piece.span.kind = .code

/-- In front of the kept piece `next` the two scans allow the same constructs, and no word of code
goes on in it. -/
structure Arrives (language : Language) (earlier : List Piece) (next : Piece) (target : Point) :
    Prop where
  alike : language.Alike next.span.text (Piece.pointAfter earlier).cursor target.cursor
  fresh : next.span.kind = .code → (Piece.pointAfter earlier).run = []
  apart : next.span.kind = .code → next.span.text.head?.any isTokenWord = true →
    target.run.head?.any isTokenWord = false

/-- What is now written after a kept piece ends a line comment, and does not go on with code. -/
structure Onward (language : Language) (piece : Piece) (after other : Text) : Prop where
  settled : piece.span.kind = .code → language.Settled piece.span.text after other
  line : piece.span.kind = .lineComment → ∀ c ∈ other.head?, isLineBreak c = true

/-- How a kept piece is changed by what is now written after it: a regular expression gets another
flag, an empty literal opens a tripled one, or a slash in code finds a closing slash. -/
inductive Fuses (language : Language) (earlier : List Piece) (piece : Piece) (after : Text) :
    Prop where
  | flag (literal : piece.span.kind = .stringLiteral) (flagged : FlaggedBy piece.span.text after)
  | quote (literal : piece.span.kind = .stringLiteral)
    (tripled : language.TripledBy piece.span.text after)
  | slash (regexes : language.regexLiterals = true) (code : piece.span.kind = .code)
    (before rest : Text) (whole : piece.span.text = before ++ '/' :: rest)
    (allowed : ((Piece.pointAfter earlier).pastAll
      (Token.lexemes ⟨.code, before⟩)).cursor.regexAllowed = true)
    (closes : (Regex.closeIndex? (rest ++ after)).isSome = true)

variable {language : Language} {source : Text} {pieces earlier later gap : List Piece}
  {piece next : Piece} {target : Point} {text other : Text}

theorem not_wouldFuse {last : Char} {span : Span} (apart : wouldFuse last span = false) {c : Char}
    (head : span.text.head? = some c) :
    ¬(isTokenWord last = true ∧ isTokenWord c = true)
      ∧ ¬(isOperatorChar last = true ∧ isOperatorChar c = true)
      ∧ ¬(span.kind = .stringLiteral ∧ isTokenWord last = true) := by
  simp only [wouldFuse, head, Option.any_some, Bool.or_eq_false_iff, Bool.and_eq_false_iff] at apart
  obtain ⟨⟨words, operators⟩, literal⟩ := apart
  refine ⟨?_, ?_, ?_⟩
  · rintro ⟨one, two⟩
    simp [one, two] at words
  · rintro ⟨one, two⟩
    simp [one, two] at operators
  · rintro ⟨kind, one⟩
    simp [kind, one] at literal

/-- Where two kept pieces now meet and did not before, rewriting has found that they may. -/
theorem not_wouldFuse_of_seam {left : Piece} (seam : Seam (some left) gap (some next) [])
    (between : gap ≠ []) {c : Char} (last : left.span.text.getLast? = some c)
    (solid : Unicode.isWhiteSpace c = false) : wouldFuse c next.span = false := by
  have filled : left.span.text.any (!Unicode.isWhiteSpace ·) = true :=
    List.any_eq_true.mpr ⟨c, List.mem_of_getLast? last, by simp [solid]⟩
  rcases (seam.tight left rfl next rfl filled).mp rfl with none | ⟨-, apart⟩
  · exact absurd none between
  · simpa [last] using apart

theorem solid_of_isTokenWord {c : Char} (word : isTokenWord c = true) :
    Unicode.isWhiteSpace c = false := by
  by_contra space
  rw [not_isTokenWord_of_isWhiteSpace (by simpa using space)] at word
  simp at word

theorem not_marks_of_isBlankChar (conventional : language.Conventional) {c : Char}
    (blank : isBlankChar c = true) : language.marks c = false := by
  by_contra marked
  rw [Bool.not_eq_false] at marked
  obtain ⟨quote, known, opener⟩ := List.any_eq_true.mp marked
  obtain ⟨mark, quotes, shape, -⟩ := conventional.quote_shape known
  rw [beq_iff_eq] at opener
  obtain rfl : c = mark := by simpa [opener] using shape
  simp [not_isExpressionQuote_of_isBlankChar blank] at quotes

/-- In the source, a kept piece is right before the next one only if the gap is empty, and then code
is followed by something else. -/
theorem Edit.next_of_code (edit : language.Edit source pieces)
    (split : pieces = earlier ++ piece :: next :: later) (code : piece.span.kind = .code) :
    next.span.kind ≠ .code := by
  have chain := edit.separated
  rw [split, List.isChain_append_cons_cons] at chain
  exact fun both => chain.2.1 ⟨code, both⟩

/-- What is new after a kept piece of code is no part of the name that it ends with, no quotation
mark of a literal that the name would be the prefix of, and no part of a comment's opener. -/
private theorem settled_of_woven (edit : language.Edit source pieces)
    (split : pieces = earlier ++ piece :: later) (code : piece.span.kind = .code)
    (woven : Woven (earlier ++ [piece]) later text) :
    language.Settled piece.span.text (Piece.textOf later) text := by
  have nonempty : ∀ piece ∈ later, piece.span.text ≠ [] := fun other member =>
    edit.text_ne_nil (by simp [split, member])
  constructor
  · intro c last name d head
    rw [Option.mem_def] at last
    have solid := solid_of_isTokenWord (c := c) (by simp [isTokenWord, name])
    rcases woven.head nonempty head with blank | ⟨gap, next, rest, rfl, -, -, start, seam⟩
    · rw [not_marks_of_isBlankChar edit.conventional blank]
      exact ⟨not_isNameChar_of_isWhiteSpace (isWhiteSpace_of_isBlankChar blank), by simp⟩
    · rw [List.getLast?_concat] at seam
      by_cases adjacent : gap = []
      · subst adjacent
        obtain ⟨others, whole⟩ := List.head?_eq_some_iff.mp start
        refine ⟨?_, fun _ => by simp [whole]⟩
        have other := edit.next_of_code split code
        rw [List.append_cons] at split
        obtain ⟨⟨word, after, reads, same⟩, -⟩ := edit.exists_lexemes split
        refine reads.not_isNameChar edit.conventional (same.trans start) ?_ other
        rw [Piece.previous_pointAfter]
        simp [last, List.getLast?_append, name]
      · have apart := not_wouldFuse_of_seam seam adjacent last solid
        obtain ⟨words, -, literal⟩ := not_wouldFuse apart start
        refine ⟨?_, fun marked => ?_⟩
        · by_contra word
          simp [isTokenWord, name, word] at words
        · -- only a literal begins with a quotation mark
          rw [List.append_cons, ← List.append_assoc] at split
          obtain ⟨⟨word, after, reads, same⟩, -⟩ := edit.exists_lexemes split
          have kind := reads.literal_of_marks edit.conventional (same.trans start) marked
          simp [isTokenWord, name, kind] at literal
  · intro last d head comment
    rcases woven.head nonempty head with blank | ⟨gap, next, rest, rfl, -, -, start, seam⟩
    · rcases comment with rfl | rfl <;> exact absurd blank (by decide)
    · rw [List.getLast?_concat] at seam
      by_cases adjacent : gap = []
      · subst adjacent
        obtain ⟨others, whole⟩ := List.head?_eq_some_iff.mp start
        simp [whole]
      · have apart := not_wouldFuse_of_seam seam adjacent last (by decide)
        obtain ⟨-, operators, -⟩ := not_wouldFuse apart start
        rcases comment with rfl | rfl <;> exact absurd (by decide) operators

theorem onward_of_woven (edit : language.Edit source pieces)
    (split : pieces = earlier ++ piece :: later) (woven : Woven (earlier ++ [piece]) later text) :
    language.Onward piece (Piece.textOf later) text := by
  constructor
  · exact fun code => settled_of_woven edit split code woven
  · intro line c head
    obtain ⟨none, some⟩ := woven.ends (by simp)
    cases later with
    | nil => simp [none rfl] at head
    | cons ending others =>
      have newline := edit.newline_of_line split line
      have one := edit.regular.each ending (by simp [split])
      obtain ⟨more, rfl⟩ := some ending rfl (by simpa [Piece.isNewline] using newline)
      obtain ⟨d, rest, whole⟩ := List.exists_cons_of_ne_nil one.nonempty
      obtain rfl : d = c := by simpa [whole] using head
      exact one.newline newline d (by simp [whole])

theorem Edit.previous_pointAfter (edit : language.Edit source pieces)
    (split : pieces = earlier ++ piece :: later) :
    (Piece.pointAfter (earlier ++ [piece])).cursor.previous = piece.span.text.getLast? := by
  rw [Piece.previous_pointAfter, Piece.getLast?_textOf_concat (edit.text_ne_nil (by simp [split]))]

/-- No name goes on from a gap into the next kept piece. -/
private theorem Edit.not_isNameChar_of_gap (edit : language.Edit source pieces)
    (split : pieces = earlier ++ (gap ++ next :: later)) (between : gap ≠ [])
    (empty : ∀ piece ∈ gap, piece.isContent = false) (content : next.isContent = true) :
    (Piece.pointAfter (earlier ++ gap)).cursor.previous.any isNameChar = false := by
  cases gap using List.reverseRecOn with
  | nil => exact absurd rfl between
  | append_singleton before last =>
    rw [List.append_assoc, List.singleton_append, ← List.append_assoc] at split
    rw [← List.append_assoc, edit.previous_pointAfter split]
    obtain ⟨c, final⟩ : ∃ c, last.span.text.getLast? = some c := by
      have nonempty : last.span.text ≠ [] := edit.text_ne_nil (by simp [split])
      exact ⟨_, List.getLast?_eq_some_getLast nonempty⟩
    have member := List.mem_of_getLast? final
    rw [final, Option.any_some]
    have regular := edit.regular.each last (by simp [split])
    rcases regular.gap_cases (empty last (by simp)) with ⟨removed, -, solid⟩ | ⟨-, blank⟩
    · have newline (line : last.span.kind = .lineComment) : False := by
        have ending := edit.newline_of_line split line
        have other := Piece.not_isNewline_of_isContent content
        simp [Piece.isNewline, ending] at other
      rcases edit.removable last (by simp [split]) removed with comment | ⟨literal, noRegex⟩
      · have block : last.span.kind = .blockComment := by
          cases kind : last.span.kind <;> simp_all [Kind.isComment]
        have here := edit.readsAt split (by simp [block])
        obtain ⟨-, body, whole, -⟩ :=
          ReadsAt.block edit.conventional (by simpa [Span.token, block] using here)
        rw [whole, ← List.cons_append, ← List.cons_append, List.getLast?_append] at final
        obtain rfl : '/' = c := by simpa using final
        decide
      · have here := edit.readsAt split (by simp [literal])
        obtain ⟨d, ends, ⟨quote, -⟩ | ⟨regex, -⟩⟩ :=
          ReadsAt.literal_last edit.conventional (by simpa [Span.token, literal] using here)
        · obtain rfl : d = c := Option.some.inj (ends.symm.trans final)
          exact not_isNameChar_of_isExpressionQuote quote
        · simp [noRegex] at regex
    · exact not_isNameChar_of_isWhiteSpace
        (isWhiteSpace_of_isBlankChar (regular.isBlankChar_of_blank blank c member))

/-- No run of code goes on in a kept piece of code. -/
private theorem Edit.run_pointAfter (edit : language.Edit source pieces)
    (split : pieces = earlier ++ piece :: later) (code : piece.span.kind = .code) :
    (Piece.pointAfter earlier).run = [] := by
  cases earlier using List.reverseRecOn with
  | nil => rfl
  | append_singleton before last =>
    rw [List.append_assoc, List.singleton_append] at split
    have other : last.span.kind ≠ .code := fun both => edit.next_of_code split both code
    rw [Piece.pointAfter, Point.run_pastAll]
    · split <;> rfl
    · have single : last.span.token.lexemes = [last.span.token] := Token.lexemes_of_ne_code other
      rw [Piece.lexemes_append, Piece.lexemes_cons, Piece.lexemes_nil, List.append_nil, single,
        List.getLast?_concat]
      rintro _ ⟨⟩
      exact other

/-- Without blanks in between, the last kept piece does not end with a word if the next one begins
with one. -/
private theorem Departs.not_isTokenWord (departs : language.Departs earlier target)
    (edit : language.Edit source pieces) (split : pieces = earlier ++ (gap ++ next :: later))
    (seam : Seam earlier.getLast? gap (some next) []) (between : gap ≠ [])
    (word : next.span.text.head?.any isTokenWord = true) :
    target.cursor.previous.any isTokenWord = false := by
  rw [departs.previous]
  cases earlier using List.reverseRecOn with
  | nil => rfl
  | append_singleton before last =>
    rw [List.append_assoc, List.singleton_append] at split
    rw [List.getLast?_concat] at seam
    rw [edit.previous_pointAfter split]
    obtain ⟨d, start, first⟩ := (Option.any_eq_true _ _).mp word
    by_contra ends
    obtain ⟨c, final, second⟩ := (Option.any_eq_true _ _).mp (by simpa using ends)
    have apart := not_wouldFuse_of_seam seam between final (solid_of_isTokenWord second)
    exact (not_wouldFuse apart start).1 ⟨second, first⟩

/-- Whether a name could go on in the next kept piece is the same in both scans. -/
private theorem Departs.name_arrives (departs : language.Departs earlier target)
    (edit : language.Edit source pieces) (split : pieces = earlier ++ (gap ++ next :: later))
    (empty : ∀ piece ∈ gap, piece.isContent = false) (content : next.isContent = true)
    {blanks : List Token} (seam : Seam earlier.getLast? gap (some next) (Token.textOf blanks))
    (name : next.span.text.head?.any isNameChar = true) :
    (target.pastAll blanks).cursor.previous.any isNameChar
      = (Piece.pointAfter (earlier ++ gap)).cursor.previous.any isNameChar := by
  rw [Point.previous_pastAll]
  by_cases between : gap = []
  · subst between
    rw [seam.unchanged (by simp), Piece.textOf_nil, List.append_nil, List.getLast?_nil,
      Option.none_or, departs.previous]
  · rw [edit.not_isNameChar_of_gap split between empty content]
    cases last : (Token.textOf blanks).getLast? with
    | some c =>
      have space := isWhiteSpace_of_isBlankChar (seam.blank c (List.mem_of_getLast? last))
      exact not_isNameChar_of_isWhiteSpace space
    | none =>
      -- the two pieces now meet, and rewriting has looked at the characters on both sides
      rw [List.getLast?_eq_none_iff.mp last] at seam
      obtain ⟨d, start, first⟩ := (Option.any_eq_true _ _).mp name
      have before := departs.not_isTokenWord edit split seam between
        (by simp [start, isTokenWord, first])
      rw [Option.none_or]
      by_contra ends
      obtain ⟨c, final, second⟩ := (Option.any_eq_true _ _).mp (by simpa using ends)
      simp [final, isTokenWord, second] at before

/-- Where regular expressions are known, only blanks and comments are in a gap. -/
private theorem Edit.isTrivia_of_gap (edit : language.Edit source pieces)
    (split : pieces = earlier ++ (gap ++ later)) (empty : ∀ piece ∈ gap, piece.isContent = false)
    (regexes : language.regexLiterals = true) :
    ∀ token ∈ Piece.lexemes gap, token.kind.isTrivia = true := by
  intro token member
  obtain ⟨piece, inside, lexeme⟩ := List.mem_flatMap.mp member
  rw [Token.kind_of_mem_lexemes lexeme]
  change piece.span.kind.isTrivia = true
  have regular := edit.regular.each piece (by simp [split, inside])
  rcases regular.gap_cases (empty piece inside) with ⟨removed, -⟩ | ⟨-, blank⟩
  · rcases edit.removable piece (by simp [split, inside]) removed with comment | ⟨-, none⟩
    · simp [Kind.isTrivia, comment]
    · simp [regexes] at none
  · simp [Kind.isTrivia, blank]

/-- No word of code goes on in the next kept piece, if this is code. -/
private theorem Departs.run_arrives (departs : language.Departs earlier target)
    (edit : language.Edit source pieces) (split : pieces = earlier ++ (gap ++ next :: later))
    {blanks : List Token} (seam : Seam earlier.getLast? gap (some next) (Token.textOf blanks))
    (blank : ∀ token ∈ blanks, token.kind.isBlank = true) (code : next.span.kind = .code)
    (word : next.span.text.head?.any isTokenWord = true) :
    (target.pastAll blanks).run.head?.any isTokenWord = false := by
  rw [Point.run_pastAll fun token member => ?_]
  · split
    next none =>
      subst none
      by_cases started : target.run = []
      · rw [started]
        rfl
      · obtain ⟨head, last, final, before⟩ := departs.run started
        have between : gap ≠ [] := by
          rintro rfl
          obtain ⟨first, rfl⟩ := List.getLast?_eq_some_iff.mp final
          rw [List.nil_append, List.append_assoc, List.singleton_append] at split
          exact edit.next_of_code split before code
        rw [head]
        exact departs.not_isTokenWord edit split seam between word
    · rfl
  · have blank := blank token (List.mem_of_getLast? member)
    intro code
    simp [code, Kind.isBlank] at blank

/-- From one kept piece to the next one, the two scans go on to allow the same constructs. -/
theorem Departs.arrives (departs : language.Departs earlier target)
    (edit : language.Edit source pieces) (split : pieces = earlier ++ (gap ++ next :: later))
    (empty : ∀ piece ∈ gap, piece.isContent = false) (content : next.isContent = true)
    {blanks : List Token} (seam : Seam earlier.getLast? gap (some next) (Token.textOf blanks))
    (blank : ∀ token ∈ blanks, token.kind.isBlank = true) :
    language.Arrives (earlier ++ gap) next (target.pastAll blanks) := by
  have here : pieces = (earlier ++ gap) ++ next :: later := by simp [split]
  refine ⟨⟨departs.name_arrives edit split empty content seam, ?_⟩, edit.run_pointAfter here,
    departs.run_arrives edit split seam blank⟩
  intro regexes
  have trivia : ∀ token ∈ blanks, token.kind.isTrivia = true := by
    intro token member
    simp [Kind.isTrivia, blank token member]
  rw [Point.regexAllowed_pastAll trivia, Piece.pointAfter_append,
    Point.regexAllowed_pastAll (edit.isTrivia_of_gap split empty regexes), departs.slash regexes]

/-- After a kept piece the two scans have seen the same. -/
theorem Arrives.departs (arrives : language.Arrives earlier piece target)
    (edit : language.Edit source pieces) (split : pieces = earlier ++ piece :: later) :
    language.Departs (earlier ++ [piece]) (target.pastAll piece.span.token.lexemes) := by
  have nonempty : piece.span.text ≠ [] := edit.text_ne_nil (by simp [split])
  have previous : (target.pastAll piece.span.token.lexemes).cursor.previous
      = piece.span.text.getLast? := by
    rw [Point.previous_pastAll, Token.textOf_lexemes]
    cases last : piece.span.text.getLast? with
    | none => exact absurd (List.getLast?_eq_none_iff.mp last) nonempty
    | some c => simp [Span.token, last]
  refine ⟨?_, ?_, ?_⟩
  · rw [previous, edit.previous_pointAfter split]
  · intro regexes
    rw [Piece.pointAfter_append, Piece.lexemes_cons, Piece.lexemes_nil, List.append_nil]
    by_cases code : piece.span.kind = .code
    · have token : piece.span.token = ⟨.code, piece.span.text⟩ := by rw [Span.token, code]
      rw [token, Point.regexAllowed_pastAll_code nonempty, Point.regexAllowed_pastAll_code nonempty,
        arrives.fresh code, List.append_nil]
      refine regexMayFollow_append (by simpa using nonempty) fun word => ?_
      exact arrives.apart code (by simpa using word)
    · rw [Token.lexemes_of_ne_code code]
      have slash := arrives.alike.slash regexes
      cases kind : piece.span.kind <;>
        simp_all [Point.past, Cursor.after, Span.token]
  · intro started
    rw [previous]
    by_cases code : piece.span.kind = .code
    · have token : piece.span.token = ⟨.code, piece.span.text⟩ := by rw [Span.token, code]
      refine ⟨?_, piece, by simp, code⟩
      rw [token, Point.run_pastAll_code, List.head?_append_of_ne_nil _ (by simpa using nonempty),
        List.head?_reverse]
    · rw [Token.lexemes_of_ne_code code] at started
      simp [Point.past, codeRunAfter, Span.token, code] at started

/-- In front of each character of kept code the two scans allow the same constructs. -/
private theorem Arrives.alike_code (arrives : language.Arrives earlier piece target)
    (code : piece.span.kind = .code) {before after : Text} {c : Char}
    (whole : piece.span.text = before ++ c :: after) :
    language.Alike [c] ((Piece.pointAfter earlier).pastAll (Token.lexemes ⟨.code, before⟩)).cursor
      (target.pastAll (Token.lexemes ⟨.code, before⟩)).cursor := by
  by_cases start : before = []
  · subst start
    refine ⟨fun name => arrives.alike.name ?_, arrives.alike.slash⟩
    simpa [whole] using name
  · constructor
    · intro _
      rw [Point.previous_pastAll, Point.previous_pastAll, Token.textOf_lexemes]
      cases last : before.getLast? with
      | none => exact absurd (List.getLast?_eq_none_iff.mp last) start
      | some d => rfl
    · intro _
      rw [Point.regexAllowed_pastAll_code start, Point.regexAllowed_pastAll_code start,
        arrives.fresh code, List.append_nil]
      refine regexMayFollow_append (by simpa using start) fun word => ?_
      refine arrives.apart code ?_
      rw [whole, List.head?_append_of_ne_nil _ start]
      simpa using word

private theorem reads_code_cons {c : Char} {text rest : Text} :
    language.Reads target (Token.lexemes ⟨.code, c :: text⟩) rest
      ↔ language.ReadsAt target ⟨.code, [c]⟩ (text ++ rest)
        ∧ language.Reads (target.past ⟨.code, [c]⟩) (Token.lexemes ⟨.code, text⟩) rest := by
  have made : Token.textOf (Token.lexemes ⟨.code, text⟩) = text := Token.textOf_lexemes _
  change language.ReadsAt target ⟨.code, [c]⟩ (Token.textOf (Token.lexemes ⟨.code, text⟩) ++ rest)
    ∧ _ ↔ _
  rw [made]
  rfl

/-- The rest of kept code is read again exactly if no slash in it now begins a regular expression. -/
private theorem rest_reads_iff (arrives : language.Arrives earlier piece target)
    (edit : language.Edit source pieces) (split : pieces = earlier ++ piece :: later)
    (code : piece.span.kind = .code)
    (settled : language.Settled piece.span.text (Piece.textOf later) other) (before after : Text)
    (whole : piece.span.text = before ++ after) :
    language.Reads (target.pastAll (Token.lexemes ⟨.code, before⟩)) (Token.lexemes ⟨.code, after⟩)
        other
      ↔ ∀ middle rest, after = middle ++ '/' :: rest → ¬(language.regexLiterals = true
        ∧ ((Piece.pointAfter earlier).pastAll
          (Token.lexemes ⟨.code, before ++ middle⟩)).cursor.regexAllowed = true
        ∧ (Regex.closeIndex? (rest ++ other)).isSome = true) := by
  induction after generalizing before with
  | nil => simp [Token.lexemes_of_code, Reads]
  | cons c after ih =>
    have here := edit.readsAt_code split code whole
    have alike := arrives.alike_code code whole
    have settled : language.Settled (c :: after) (Piece.textOf later) other := by
      rw [whole] at settled
      have last : (before ++ c :: after).getLast? = (c :: after).getLast? :=
        List.getLast?_append_of_ne_nil _ (List.cons_ne_nil _ _)
      exact ⟨last ▸ settled.name, last ▸ settled.slash⟩
    have next := ih (before ++ [c]) (by simp [whole])
    have step : target.pastAll (Token.lexemes ⟨.code, before ++ [c]⟩)
        = (target.pastAll (Token.lexemes ⟨.code, before⟩)).past ⟨.code, [c]⟩ := by
      simp [Token.lexemes_of_code]
    rw [step] at next
    rw [reads_code_cons, next, code_iff edit.conventional here alike settled]
    constructor
    · rintro ⟨first, others⟩ middle rest same ⟨regexes, allowed, closes⟩
      cases middle with
      | nil =>
        obtain ⟨rfl, rfl⟩ := List.cons.inj same
        rw [List.append_nil] at allowed
        exact first ⟨regexes, (alike.slash regexes).trans allowed, rfl, closes⟩
      | cons d middle =>
        obtain ⟨rfl, rfl⟩ := List.cons.inj same
        exact others middle rest rfl ⟨regexes, by simpa using allowed, closes⟩
    · intro all
      constructor
      · rintro ⟨regexes, allowed, rfl, closes⟩
        refine all [] after rfl ⟨regexes, ?_, closes⟩
        rw [List.append_nil, ← alike.slash regexes, allowed]
      · rintro middle rest rfl ⟨regexes, allowed, closes⟩
        exact all (c :: middle) rest rfl ⟨regexes, by simpa using allowed, closes⟩

/-- A kept piece is read again exactly if it does not fuse with what is written after it. -/
theorem reads_iff (arrives : language.Arrives earlier piece target)
    (edit : language.Edit source pieces) (split : pieces = earlier ++ piece :: later)
    (content : piece.isContent = true)
    (onward : language.Onward piece (Piece.textOf later) other) :
    language.Reads target piece.span.token.lexemes other
      ↔ ¬language.Fuses earlier piece other := by
  by_cases code : piece.span.kind = .code
  · have token : piece.span.token = ⟨.code, piece.span.text⟩ := by rw [Span.token, code]
    have all := rest_reads_iff arrives edit split code (onward.settled code) [] piece.span.text rfl
    rw [token]
    refine all.trans ⟨?_, ?_⟩
    · rintro never (⟨literal⟩ | ⟨literal⟩ | ⟨regexes, -, before, rest, whole, allowed, closes⟩)
      · exact absurd (code.symm.trans literal) (by simp)
      · exact absurd (code.symm.trans literal) (by simp)
      · exact never before rest whole ⟨regexes, allowed, closes⟩
    · rintro apart before rest whole ⟨regexes, allowed, closes⟩
      exact apart (.slash regexes code before rest whole allowed closes)
  have here := edit.readsAt split code
  rw [Token.lexemes_of_ne_code code]
  have single : language.Reads target [piece.span.token] other
      ↔ language.ReadsAt target piece.span.token other := by simp [Reads]
  rw [single]
  have solid := Piece.not_isBlank_of_isContent content
  cases kind : piece.span.kind with
  | code => exact absurd kind code
  | whitespace => simp [kind, Kind.isBlank] at solid
  | newline => simp [kind, Kind.isBlank] at solid
  | stringLiteral =>
    have token : piece.span.token = ⟨.stringLiteral, piece.span.text⟩ := by rw [Span.token, kind]
    rw [token] at here ⊢
    rw [literal_iff edit.conventional here arrives.alike]
    constructor
    · rintro ⟨noFlag, untripled⟩ fuses
      cases fuses with
      | flag literal flagged => exact noFlag flagged
      | quote literal tripled => exact untripled tripled
      | slash regexes code => exact absurd (kind.symm.trans code) (by simp)
    · intro apart
      exact ⟨fun flagged => apart (.flag kind flagged), fun tripled => apart (.quote kind tripled)⟩
  | blockComment =>
    have token : piece.span.token = ⟨.blockComment, piece.span.text⟩ := by rw [Span.token, kind]
    rw [token] at here ⊢
    refine iff_of_true (block_reads edit.conventional here) ?_
    rintro (literal | literal | ⟨-, code⟩) <;> simp_all
  | lineComment =>
    have token : piece.span.token = ⟨.lineComment, piece.span.text⟩ := by rw [Span.token, kind]
    rw [token] at here ⊢
    refine iff_of_true (line_reads edit.conventional here (onward.line kind)) ?_
    rintro (literal | literal | ⟨-, code⟩) <;> simp_all

end Language

end CommentStrip
