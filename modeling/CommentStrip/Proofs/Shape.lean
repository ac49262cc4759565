import CommentStrip.Proofs.Place

/-!
# The shape of spans

What a span of each kind looks like where it stands. Blanks go as far as they can, a comment goes from
its opener to the first place that ends it, and a literal has its delimiters on both sides. Code is
what is left: it has no blank and no quotation mark in it, and no comment opens there, not even one
whose opener would reach beyond the span.
-/
namespace CommentStrip

/-- A text does not occur earlier than where it is found. -/
theorem Text.le_of_occurrence? {sought text before after : Text} {index : Nat}
    (found : occurrence? sought text = some index) (whole : text = before ++ (sought ++ after)) :
    index ≤ before.length := by
  induction text generalizing before index with
  | nil =>
    obtain ⟨-, none⟩ := List.append_eq_nil_iff.mp whole.symm
    obtain ⟨rfl, -⟩ := List.append_eq_nil_iff.mp none
    obtain rfl : 0 = index := Option.some.inj found
    exact Nat.zero_le _
  | cons c rest ih =>
    simp only [occurrence?] at found
    split at found
    · obtain rfl : 0 = index := Option.some.inj found
      exact Nat.zero_le _
    next absent =>
      cases before with
      | nil => simp [whole] at absent
      | cons d more =>
        obtain ⟨-, rfl⟩ := List.cons.inj whole
        obtain ⟨earlier, later, rfl⟩ := Option.map_eq_some_iff.mp found
        exact Nat.succ_le_succ (ih later rfl)

namespace Language

/-- The texts that open a comment. -/
def commentOpeners (language : Language) : List Text :=
  language.lineMarkers ++ language.blockComments.map (·.opener)

example : python.commentOpeners = ["#".toList] := rfl

example : ∀ language ∈ [javaScript, typeScript, dart],
    language.commentOpeners = ["//".toList, "/*".toList] := by
  simp [javaScript, typeScript, dart, commentOpeners, Delimiters.slashStar]

/-- What a span of each kind looks like between the text `before` it and the text `after` it, where
`next` is the kind of the span that comes next. -/
inductive Shaped (language : Language) (before after : Text) (next : Option Kind) :
    Kind → Text → Prop where
  | newline {text : Text} (lineBreak : text = ['\n'] ∨ text = ['\r', '\n'] ∨ text = ['\r']) :
    Shaped language before after next .newline text
  | whitespace {text : Text} (nonempty : text ≠ []) (blank : ∀ c ∈ text, isInlineBlank c = true)
    (starts : ∀ c ∈ before.getLast?, isInlineBlank c = false)
    (stops : ∀ c ∈ after.head?, isInlineBlank c = false) :
    Shaped language before after next .whitespace text
  | lineComment {marker body : Text} (known : marker ∈ language.lineMarkers)
    (unbroken : ∀ c ∈ marker ++ body, isLineBreak c = false)
    (ends : ∀ kind ∈ next, kind = .newline) :
    Shaped language before after next .lineComment (marker ++ body)
  /-- The closer does not occur before the end, after the opener. -/
  | blockComment {body : Text} (first : ¬['*', '/'] <:+: body ++ ['*']) :
    Shaped language before after next .blockComment (['/', '*'] ++ (body ++ ['*', '/']))
  | quoted {lead body : Text} {quote : Quote} (known : quote ∈ language.quotes)
    (prefixed : lead = []
      ∨ ∃ known ∈ language.stringPrefixes, lead.sameIgnoringCase known = true) :
    Shaped language before after next .stringLiteral
      (lead ++ (quote.opener ++ (body ++ quote.closer)))
  | regex {body flags : Text} (known : language.regexLiterals = true)
    (start : ∀ c ∈ body.head?, c ≠ '/' ∧ c ≠ '*')
    (flagged : ∀ c ∈ flags, Unicode.isAlphanumeric c = true) :
    Shaped language before after next .stringLiteral ('/' :: (body ++ '/' :: flags))
  /-- No comment opens at any character of the code, whatever part of its opener stands after it. -/
  | code {text : Text} (solid : ∀ c ∈ text, isInlineBlank c = false ∧ isLineBreak c = false)
    (unquoted : ∀ c ∈ text, ∀ quote ∈ language.quotes, c ∉ quote.opener ∧ c ∉ quote.closer)
    (uncommented : ∀ first rest, text = first ++ rest → rest ≠ [] →
      ∀ opener ∈ language.commentOpeners, ¬opener <+: rest ++ after) :
    Shaped language before after next .code text

section Reading

variable {language : Language} {point : Point} {word rest : Text}

/-- The closer of a block comment is the first one after its opener. -/
theorem ReadsAt.closer_first (conventional : language.Conventional)
    (reads : language.ReadsAt point ⟨.blockComment, word⟩ rest) :
    ∃ body, word = ['/', '*'] ++ (body ++ ['*', '/']) ∧ ¬['*', '/'] <:+: body ++ ['*'] := by
  obtain ⟨-, body, rfl, closes⟩ := reads.block conventional
  refine ⟨body, rfl, ?_⟩
  rintro ⟨before, after, whole⟩
  -- an earlier closer would have been found first
  have earlier : body ++ (['*', '/'] ++ rest) = before ++ (['*', '/'] ++ (after ++ '/' :: rest)) := by
    calc body ++ (['*', '/'] ++ rest) = body ++ ['*'] ++ '/' :: rest := by simp
      _ = before ++ ['*', '/'] ++ after ++ '/' :: rest := by rw [whole]
      _ = _ := by simp
  have bound := Text.le_of_occurrence? closes earlier
  have lengths := congrArg List.length whole
  simp only [List.length_append, List.length_cons, List.length_nil] at lengths
  omega

/-- No comment opens where a character of code is read. -/
theorem ReadsAt.uncommented (conventional : language.Conventional) {c : Char}
    (reads : language.ReadsAt point ⟨.code, [c]⟩ rest) :
    ∀ opener ∈ language.commentOpeners, ¬opener <+: c :: rest := by
  cases reads.takes with
  | code unquoted noRegex noBlock noLine noNewline noWhitespace =>
    intro opener known opens
    rw [← List.isPrefixOf_iff_prefix] at opens
    rcases List.mem_append.mp known with marker | block
    · have absent := conventional.lineAt?_eq_none.mp noLine opener marker
      exact Bool.false_ne_true (absent.symm.trans opens)
    · obtain ⟨delimiters, member, rfl⟩ := List.mem_map.mp block
      rcases conventional.blockAt?_eq_none.mp noBlock with none | absent
      · simp [none] at member
      · rw [conventional.blocks delimiters member] at opens
        exact Bool.false_ne_true (absent.symm.trans opens)

/-- A regular expression does not begin like a comment. -/
theorem IsRegex.start {body flags : Text} (regex : IsRegex word rest body flags) :
    ∀ c ∈ body.head?, c ≠ '/' ∧ c ≠ '*' := by
  intro c head
  obtain ⟨more, rfl⟩ := List.head?_eq_some_iff.mp head
  have closes := regex.closes
  rw [Regex.closeIndex?] at closes
  split at closes
  · simp at closes
  next other => simpa using other

/-- A character that is no quotation mark of the language stands in none of its quotes. -/
theorem Conventional.not_mem_quote (conventional : language.Conventional) {c : Char}
    (unmarked : language.marks c = false) {quote : Quote} (known : quote ∈ language.quotes) :
    c ∉ quote.opener ∧ c ∉ quote.closer := by
  obtain ⟨-, -, -, closer⟩ := conventional.quote_shape known
  rw [closer, and_self]
  intro member
  obtain ⟨single, listed, opener⟩ := conventional.single quote known c member
  have marked : language.marks c = true := List.any_eq_true.mpr ⟨single, listed, by simp [opener]⟩
  simp [unmarked] at marked

end Reading

namespace Edit

variable {language : Language} {source : Text} {pieces earlier later : List Piece} {piece : Piece}

/-- No blank stands right before a run of blanks. -/
theorem not_isInlineBlank_before (edit : language.Edit source pieces)
    (split : pieces = earlier ++ piece :: later) (whitespace : piece.span.kind = .whitespace) :
    ∀ c ∈ (Piece.textOf earlier).getLast?, isInlineBlank c = false := by
  intro c last
  cases earlier using List.reverseRecOn with
  | nil => simp at last
  | append_singleton before one =>
    rw [List.append_assoc, List.singleton_append] at split
    obtain ⟨-, point, word, reads, same⟩ := edit.exists_lexemes split
    rw [Piece.getLast?_textOf_concat (edit.text_ne_nil (by simp [split])), ← same] at last
    cases kind : one.span.kind with
    | newline =>
      rw [kind] at reads
      exact not_isInlineBlank_of_isLineBreak (reads.newline c (List.mem_of_getLast? last))
    | lineComment => simp [edit.newline_of_line split kind] at whitespace
    | whitespace =>
      -- blanks would have gone on
      rw [kind] at reads
      obtain ⟨d, rest, whole⟩ := List.exists_cons_of_ne_nil (edit.text_ne_nil
        (show piece ∈ pieces by simp [split]))
      have stops := reads.whitespace_shape.2.2 d (by simp [whole])
      have inline := (edit.regular.each piece (by simp [split])).whitespace whitespace d
        (by simp [whole])
      simp [stops] at inline
    | code | stringLiteral | blockComment =>
      have other := reads.last edit.conventional (by rw [kind]; rfl) (by simp [kind]) c last
      rw [isBlankChar, Bool.or_eq_false_iff] at other
      exact other.1

/-- What is left for code. -/
private theorem shaped_code (edit : language.Edit source pieces)
    (split : pieces = earlier ++ piece :: later) (code : piece.span.kind = .code)
    (next : Option Kind) :
    language.Shaped (Piece.textOf earlier) (Piece.textOf later) next .code piece.span.text := by
  have character : ∀ c ∈ piece.span.text, isBlankChar c = false ∧ language.marks c = false := by
    intro c member
    obtain ⟨first, rest, whole⟩ := List.append_of_mem member
    obtain ⟨d, same, other⟩ := (edit.readsAt_code split code whole).code edit.conventional
    obtain rfl : c = d := by simpa using same
    exact other
  refine .code (fun c member => ?_) (fun c member quote known => ?_) ?_
  · simpa only [isBlankChar, Bool.or_eq_false_iff] using (character c member).1
  · exact edit.conventional.not_mem_quote (character c member).2 known
  · intro first rest whole more
    obtain ⟨c, others, rfl⟩ := List.exists_cons_of_ne_nil more
    exact (edit.readsAt_code split code whole).uncommented edit.conventional

/-- A piece has the shape of its kind where it stands. -/
theorem shaped (edit : language.Edit source pieces) (split : pieces = earlier ++ piece :: later) :
    language.Shaped (Piece.textOf earlier) (Piece.textOf later) (later.head?.map (·.span.kind))
      piece.span.kind piece.span.text := by
  by_cases code : piece.span.kind = .code
  · rw [code]
    exact shaped_code edit split code _
  have reads := edit.readsAt split code
  rw [Span.token] at reads
  cases kind : piece.span.kind with
  | code => exact absurd kind code
  | newline =>
    rw [kind] at reads
    refine .newline ?_
    rcases reads.newline_shape with pair | feed | ⟨carriage, -⟩
    · exact .inr (.inl pair)
    · exact .inl feed
    · exact .inr (.inr carriage)
  | whitespace =>
    rw [kind] at reads
    obtain ⟨nonempty, blank, stops⟩ := reads.whitespace_shape
    exact .whitespace nonempty blank (edit.not_isInlineBlank_before split kind) stops
  | lineComment =>
    rw [kind] at reads
    obtain ⟨marker, known, body, whole, unbroken, -⟩ := reads.line
    rw [whole]
    refine .lineComment known ?_ ?_
    · rw [List.forall_mem_append]
      refine ⟨?_, unbroken⟩
      rcases edit.conventional.markers marker known with rfl | rfl <;> simp [isLineBreak]
    · intro other found
      obtain ⟨next, head, rfl⟩ := Option.map_eq_some_iff.mp found
      obtain ⟨rest, rfl⟩ := List.head?_eq_some_iff.mp head
      exact edit.newline_of_line split kind
  | blockComment =>
    rw [kind] at reads
    obtain ⟨body, whole, first⟩ := reads.closer_first edit.conventional
    rw [whole]
    exact .blockComment first
  | stringLiteral =>
    rw [kind] at reads
    rcases reads.literal edit.conventional with ⟨opening, mark, body, quoted⟩ | ⟨allowed, body, flags, regex⟩
    · rw [quoted.whole]
      refine .quoted quoted.known ?_
      rcases mem_leadsAt_iff.mp quoted.lead_mem with none | ⟨-, known, listed, -, same⟩
      · exact .inl none
      · exact .inr ⟨known, listed, same⟩
    · rw [regex.whole]
      exact .regex allowed.1 regex.start regex.flags

end Edit

variable {language : Language} {source : Text} {earlier later : List Span} {span : Span}

/--
Every span of a source has the shape of its kind where it stands, between the spans before it and those
after it.
-/
theorem spans_shaped (known : language ∈ registered)
    (scanned : language.spans source = .ok (earlier ++ span :: later)) :
    source = earlier.flatMap Span.text ++ (span.text ++ later.flatMap Span.text)
      ∧ language.Shaped (earlier.flatMap Span.text) (later.flatMap Span.text)
        (later.head?.map Span.kind) span.kind span.text := by
  refine ⟨text_of_spans scanned, ?_⟩
  have shaped := (edit_of_spans known scanned).shaped (List.map_append ..)
  rw [Piece.textOf_map_kept, Piece.textOf_map_kept, List.head?_map, Option.map_map] at shaped
  exact shaped

/-- A block comment with half an opener before its end, and code that a comment follows at once. -/
theorem spans_shaped_between_comments :
    ∃ earlier later, javaScript.spans "a/*b/*/ /c//".toList
        = .ok (earlier ++ ⟨.code, 8, 10, 1, 9, "/c".toList⟩ :: later)
      ∧ "a/*b/*/ /c//".toList
        = earlier.flatMap Span.text ++ ("/c".toList ++ later.flatMap Span.text)
      ∧ javaScript.Shaped "a/*b/*/ ".toList "//".toList (some .lineComment) .code "/c".toList := by
  have scanned : javaScript.spans "a/*b/*/ /c//".toList
      = .ok ([⟨.code, 0, 1, 1, 1, "a".toList⟩, ⟨.blockComment, 1, 7, 1, 2, "/*b/*/".toList⟩,
          ⟨.whitespace, 7, 8, 1, 8, " ".toList⟩] ++ ⟨.code, 8, 10, 1, 9, "/c".toList⟩
        :: [⟨.lineComment, 10, 12, 1, 11, "//".toList⟩]) := by
    rw [spans_eq_lexWithin]
    decide +kernel
  have known : javaScript ∈ registered := by simp [registered]
  exact ⟨_, _, scanned, spans_shaped known scanned⟩

end Language

end CommentStrip
