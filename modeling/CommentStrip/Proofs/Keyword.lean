import CommentStrip.Docstring
import CommentStrip.Proofs.Statements

/-!
# Keywords at the start of a text

A header is known by the keyword that its logical line begins with. A keyword ends before the first
line break and before the first blank at the end of a line, so what comes after such a break, and the
blanks in front of it, may change. White space in front of the keyword may come and go, but no literal
stands there.
-/
namespace CommentStrip

/-- Whether a text begins with a keyword of the rule, after white space. -/
def HeaderRule.begins (rule : HeaderRule) (text : Text) : Bool :=
  rule.keywords.any (startsWithKeyword text.trimStart)

/-- Keywords are words without line breaks, and no literal begins like one. -/
structure HeaderRule.Plain (rule : HeaderRule) : Prop where
  unbroken : ∀ keyword ∈ rule.keywords, ∀ c ∈ keyword, isLineBreak c = false
  ends : ∀ keyword ∈ rule.keywords, ∀ c ∈ keyword.getLast?, isBlankChar c = false
  starts : ∀ keyword ∈ rule.keywords, ∃ c ∈ keyword.head?, c ∈ ['d', 'c', 'a']

theorem HeaderRule.plain_of_python {rule : HeaderRule} (known : rule ∈ Language.python.docstrings) :
    rule.Plain := by
  have tests : (Language.python.docstrings.all fun rule => rule.keywords.all fun keyword =>
      keyword.all (!isLineBreak ·) && keyword.getLast?.all (!isBlankChar ·)
        && keyword.head?.any (['d', 'c', 'a'].contains ·)) = true := by decide
  rw [Option.mem_def.mp known, Option.all_some, List.all_eq_true] at tests
  have each (keyword : Text) (member : keyword ∈ rule.keywords) :
      (∀ c ∈ keyword, isLineBreak c = false) ∧ (∀ c ∈ keyword.getLast?, isBlankChar c = false)
        ∧ ∃ c ∈ keyword.head?, c ∈ ['d', 'c', 'a'] := by
    have test := tests keyword member
    rw [Bool.and_eq_true, Bool.and_eq_true, List.all_eq_true, Option.all_eq_true, Option.any_eq_true,
      and_assoc] at test
    simpa using test
  exact ⟨fun keyword member => (each keyword member).1, fun keyword member => (each keyword member).2.1,
    fun keyword member => (each keyword member).2.2⟩

namespace Text

/-- White space in front of a text is passed over. -/
theorem trimStart_append {blanks : Text} (white : ∀ c ∈ blanks, Unicode.isWhiteSpace c = true)
    (text : Text) : trimStart (blanks ++ text) = trimStart text := by
  rw [trimStart, List.dropWhile_append_of_pos white]
  rfl

theorem trimStart_append_of_visible {front : Text}
    (visible : front.any (!Unicode.isWhiteSpace ·) = true) (text : Text) :
    trimStart (front ++ text) = trimStart front ++ text ∧ trimStart front ≠ [] := by
  have some : front.dropWhile Unicode.isWhiteSpace ≠ [] := by
    intro none
    rw [List.dropWhile_eq_nil_iff] at none
    obtain ⟨c, member, other⟩ := List.any_eq_true.mp visible
    simp [none c member] at other
  refine ⟨?_, some⟩
  rw [trimStart, List.dropWhile_append, if_neg (by simpa using some)]
  rfl

end Text

section Keyword

variable {keyword front inline rest blanks other : Text} {lineBreak : Char}

/-- A keyword at the start of a text stands before the first line break, and before the blanks in front
of that. -/
private theorem prefix_of_lineBreak (unbroken : ∀ c ∈ keyword, isLineBreak c = false)
    (ends : ∀ c ∈ keyword.getLast?, isBlankChar c = false) (breaks : isLineBreak lineBreak = true)
    (white : ∀ c ∈ inline, isBlankChar c = true)
    (starts : keyword <+: front ++ (inline ++ lineBreak :: rest)) : keyword <+: front := by
  by_cases fits : keyword.length ≤ front.length
  · exact List.prefix_of_prefix_length_le starts (List.prefix_append _ _) fits
  -- otherwise it would end with one of the blanks or hold the line break
  obtain ⟨more, rfl⟩ :=
    List.prefix_of_prefix_length_le (List.prefix_append _ _) starts (Nat.le_of_not_le fits)
  have nonempty : more ≠ [] := by
    rintro rfl
    simp at fits
  rw [List.prefix_append_right_inj] at starts
  rw [List.getLast?_append_of_ne_nil _ nonempty] at ends
  by_cases short : more.length ≤ inline.length
  · have inside := List.prefix_of_prefix_length_le starts (List.prefix_append _ _) short
    have last := List.getLast?_eq_some_getLast nonempty
    have blank := white _ (inside.subset (List.mem_of_getLast? last))
    simp [ends _ last] at blank
  · rw [List.append_cons] at starts
    have inside := List.prefix_of_prefix_length_le (List.prefix_append _ _) starts
      (by simp only [List.length_append, List.length_singleton]; omega)
    have member : lineBreak ∈ more := inside.subset (by simp)
    simp [unbroken lineBreak (by simp [member])] at breaks

/-- A keyword at the start of a text stays there if what comes after a line break changes, and the
blanks that it stands in. -/
theorem startsWithKeyword_of_lineBreak (unbroken : ∀ c ∈ keyword, isLineBreak c = false)
    (ends : ∀ c ∈ keyword.getLast?, isBlankChar c = false) (breaks : isLineBreak lineBreak = true)
    (white : ∀ c ∈ inline, isBlankChar c = true) (blank : ∀ c ∈ blanks.head?, isBlankChar c = true)
    (some : blanks ≠ [])
    (starts : startsWithKeyword (front ++ (inline ++ lineBreak :: rest)) keyword = true) :
    startsWithKeyword (front ++ (blanks ++ other)) keyword = true := by
  simp only [startsWithKeyword, Bool.and_eq_true, List.isPrefixOf_iff_prefix] at starts ⊢
  obtain ⟨begins, follows⟩ := starts
  obtain ⟨more, rfl⟩ := prefix_of_lineBreak unbroken ends breaks white begins
  simp only [List.append_assoc, List.drop_left] at follows ⊢
  refine ⟨List.prefix_append _ _, ?_⟩
  cases more with
  | cons c more => simpa using follows
  | nil =>
    obtain ⟨c, others, rfl⟩ := List.exists_cons_of_ne_nil some
    simpa using isWhiteSpace_of_isBlankChar (blank c rfl)

end Keyword

namespace HeaderRule

/-- After any other text, a keyword at its start stays if one text is put in place of another. -/
def Replaces (rule : HeaderRule) (text other : Text) : Prop :=
  ∀ front, rule.begins (front ++ text) = true → rule.begins (front ++ other) = true

variable {rule : HeaderRule} {front inline rest blanks text other : Text} {lineBreak : Char}

theorem Replaces.append (replaces : rule.Replaces text other) (front : Text) :
    rule.Replaces (front ++ text) (front ++ other) := by
  intro before
  rw [← List.append_assoc, ← List.append_assoc]
  exact replaces (before ++ front)

theorem begins_append (white : ∀ c ∈ blanks, Unicode.isWhiteSpace c = true) (text : Text) :
    rule.begins (blanks ++ text) = rule.begins text := by
  rw [begins, Text.trimStart_append white, begins]

/-- A text that is not blank begins with a keyword also if what comes after its first line break
changes, and the blanks that the break stands in. -/
theorem Plain.begins_of_lineBreak (plain : rule.Plain)
    (visible : front.any (!Unicode.isWhiteSpace ·) = true) (breaks : isLineBreak lineBreak = true)
    (white : ∀ c ∈ inline, isBlankChar c = true) (blank : ∀ c ∈ blanks.head?, isBlankChar c = true)
    (some : blanks ≠ []) (starts : rule.begins (front ++ (inline ++ lineBreak :: rest)) = true) :
    rule.begins (front ++ (blanks ++ other)) = true := by
  rw [begins, (Text.trimStart_append_of_visible visible _).1, List.any_eq_true] at starts ⊢
  obtain ⟨keyword, known, starts⟩ := starts
  exact ⟨keyword, known, startsWithKeyword_of_lineBreak (plain.unbroken keyword known)
    (plain.ends keyword known) breaks white blank some starts⟩

/-- The first character of a literal is a quotation mark or one of a prefix. -/
private theorem exists_first_of_literal {source : Point} {word after : Text}
    (reads : Language.python.ReadsAt source ⟨.stringLiteral, word⟩ after) :
    ∃ c others, word = c :: others ∧ Unicode.isWhiteSpace c = false ∧ c ∉ ['d', 'c', 'a'] := by
  have conventional : Language.python.Conventional := Language.conventional_of_registered
    (by simp [Language.registered])
  rcases reads.literal conventional with ⟨opening, mark, body, quoted⟩ | ⟨regexes, -⟩
  · obtain ⟨tail, made, -⟩ := quoted.exists_tail
    cases lead : opening.lead with
    | nil =>
      have marked := quoted.marked
      refine ⟨mark, tail, by rw [made, lead]; rfl, ?_⟩
      simp only [isExpressionQuote, Bool.or_eq_true, beq_iff_eq] at marked
      rcases marked with (rfl | rfl) | rfl <;> decide
    | cons c more =>
      refine ⟨c, more ++ mark :: tail, by rw [made, lead]; rfl, ?_, fun listed => ?_⟩
      · by_contra white
        rw [Bool.not_eq_false] at white
        have letter := isNameChar_of_isAlpha (quoted.letters c (by simp [lead]))
        simp [not_isNameChar_of_isWhiteSpace white] at letter
      · rcases Language.mem_leadsAt_iff.mp quoted.lead_mem with none | ⟨-, known, prefixes, -, same⟩
        · simp [lead] at none
        · have heads := congrArg List.head? (beq_iff_eq.mp (lead ▸ same))
          rw [List.map_cons, List.head?_cons, List.head?_map] at heads
          have lower : (['d', 'c', 'a'].all fun c => Language.python.stringPrefixes.all fun known =>
              some c.toLower != known.head?.map Char.toLower) = true := by decide
          have other := List.all_eq_true.mp (List.all_eq_true.mp lower c listed) known prefixes
          exact bne_iff_ne.mp other heads
  · simp [Language.python] at regexes

/-- In Python no literal begins like a keyword. -/
theorem not_begins_literal (known : rule ∈ Language.python.docstrings) {source : Text}
    {pieces earlier later : List Piece} {piece : Piece} (edit : Language.python.Edit source pieces)
    (split : pieces = earlier ++ piece :: later) (literal : piece.span.kind = .stringLiteral)
    (rest : Text) : rule.begins (piece.span.text ++ rest) = false := by
  have here := edit.readsAt split (by simp [literal])
  have token : piece.span.token = ⟨.stringLiteral, piece.span.text⟩ := by rw [Span.token, literal]
  rw [token] at here
  obtain ⟨c, others, whole, visible, other⟩ := exists_first_of_literal here
  rw [begins, whole, List.cons_append, Text.trimStart, List.dropWhile_cons_of_neg (by simp [visible]),
    List.any_eq_false]
  intro keyword member starts
  obtain ⟨first, head, listed⟩ := (plain_of_python known).starts keyword member
  obtain ⟨more, rfl⟩ := List.head?_eq_some_iff.mp head
  simp only [startsWithKeyword, List.isPrefixOf, Bool.and_eq_true, beq_iff_eq] at starts
  exact other (starts.1.1 ▸ listed)

end HeaderRule

end CommentStrip
