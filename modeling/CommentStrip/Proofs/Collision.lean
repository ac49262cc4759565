import CommentStrip.Proofs.Rescan

/-!
# Collisions of kept tokens

Where a comment goes from between two kept tokens without leaving a blank, the first may go on in the
second: a regular expression gets a flag, an empty literal a third quotation mark. And a slash that
divides may begin a regular expression if a closing slash follows it now. There are no other ways for
a rewritten program to be read differently.
-/
namespace CommentStrip

/-- Two kept pieces that something is removed between, where nothing else stands between them and no
line ends. -/
def Meet (pieces : List Piece) (left right : Piece) : Prop :=
  ∃ earlier gap later, pieces = earlier ++ left :: (gap ++ right :: later)
    ∧ left.isContent = true ∧ right.isContent = true ∧ gap ≠ []
    ∧ ∀ piece ∈ gap, piece.removed = true ∧ piece.span.containsLineBreak = false

inductive Collision (language : Language) (pieces : List Piece) : Prop where
  /-- A regular expression without flags meets what begins like a flag. -/
  | flag {left right : Piece} (meet : Meet pieces left right)
    (literal : left.span.kind = .stringLiteral) (opens : left.span.text.head? = some '/')
    (closes : left.span.text.getLast? = some '/')
    (goesOn : right.span.text.head?.any Unicode.isAlphanumeric = true)
  /-- An empty literal meets what begins with its quotation mark, which also opens literals when it
  stands three times. -/
  | quote {left right : Piece} (meet : Meet pieces left right)
    (literal : left.span.kind = .stringLiteral) {lead : Text} {mark : Char}
    (whole : left.span.text = lead ++ [mark, mark]) (absent : mark ∉ lead)
    (triples : language.triples mark = true) (goesOn : right.span.text.head? = some mark)
  /-- A slash in code, where a regular expression may begin, finds a closing slash in what is now
  written after it. -/
  | slash {earlier later : List Piece} {piece : Piece} (split : pieces = earlier ++ piece :: later)
    (regexes : language.regexLiterals = true) (code : piece.span.kind = .code) {before rest : Text}
    (whole : piece.span.text = before ++ '/' :: rest)
    (allowed : ((Piece.pointAfter earlier).pastAll
      (Token.lexemes ⟨.code, before⟩)).cursor.regexAllowed = true)
    (closes : (Regex.closeIndex? (rest ++ writtenAfter earlier piece later)).isSome = true)

namespace Language

variable {language : Language} {source : Text} {pieces earlier later : List Piece}
  {left right piece : Piece}

/-- Where two kept pieces meet, nothing is written between them if they may stand together. -/
private theorem written_of_meet (edit : language.Edit source pieces)
    (meet : Meet pieces left right) {c : Char} (last : left.span.text.getLast? = some c)
    (solid : Unicode.isWhiteSpace c = false) (apart : wouldFuse c right.span = false) :
    ∃ earlier later, pieces = earlier ++ left :: later ∧ left.isContent = true
      ∧ (writtenAfter earlier left later).head? = right.span.text.head? := by
  obtain ⟨earlier, gap, later, split, content, rightContent, -, removed⟩ := meet
  have regular : Regular (left :: (gap ++ right :: later)) := (split ▸ edit.regular).right
  have empty : ∀ piece ∈ gap, piece.isContent = false := fun piece member => by
    simp [Piece.isContent, (removed piece member).1]
  obtain ⟨blanks, seam, written⟩ := seam_between earlier content rightContent regular empty
  have filled : left.span.text.any (!Unicode.isWhiteSpace ·) = true :=
    List.any_eq_true.mpr ⟨c, List.mem_of_getLast? last, by simp [solid]⟩
  have none : blanks = [] := by
    refine (seam.tight left rfl right rfl filled).mpr (.inr ⟨removed, ?_⟩)
    simpa [last] using apart
  have nonempty := edit.text_ne_nil (show right ∈ pieces by simp [split])
  refine ⟨earlier, _, split, content, ?_⟩
  rw [written, none, List.nil_append, List.head?_append_of_ne_nil _ nonempty]

/-- Kept pieces that are next to each other now, and were not before, meet. -/
private theorem meet_of_written (edit : language.Edit source pieces)
    (split : pieces = earlier ++ piece :: later) (content : piece.isContent = true) {c d : Char}
    (head : (writtenAfter earlier piece later).head? = some d) (solid : isBlankChar d = false)
    (fresh : (Piece.textOf later).head? ≠ some d) (last : piece.span.text.getLast? = some c)
    (filled : piece.span.text.any (!Unicode.isWhiteSpace ·) = true) :
    ∃ right, Meet pieces piece right ∧ right.span.text.head? = some d
      ∧ wouldFuse c right.span = false := by
  obtain ⟨gap, right, rest, rfl, empty, rightContent, start, seam⟩ :=
    edit.meets split content head solid
  have between : gap ≠ [] := by
    rintro rfl
    obtain ⟨others, whole⟩ := List.head?_eq_some_iff.mp start
    simp [whole] at fresh
  rcases (seam.tight piece rfl right rfl filled).mp rfl with none | ⟨removed, apart⟩
  · exact absurd none between
  · exact ⟨right, ⟨earlier, gap, rest, split, content, rightContent, between, removed⟩, start,
      by simpa [last] using apart⟩

private theorem not_isOperatorChar_of_isAlphanumeric {c : Char}
    (flag : Unicode.isAlphanumeric c = true) : isOperatorChar c = false := by
  by_contra operator
  rw [Bool.not_eq_false, isOperatorChar, List.contains_iff_mem] at operator
  have none : "+-*/%=<>!&|^~?:.".toList.all (!Unicode.isAlphanumeric ·) = true := by
    decide +kernel
  have here := List.all_eq_true.mp none c operator
  simp [flag] at here

private theorem not_wouldFuse_of_slash {span : Span}
    (flag : span.text.head?.any Unicode.isAlphanumeric = true) : wouldFuse '/' span = false := by
  obtain ⟨c, head, flag⟩ := (Option.any_eq_true _ _).mp flag
  have slash : isTokenWord '/' = false := by decide
  simp [wouldFuse, head, slash, not_isOperatorChar_of_isAlphanumeric flag]

private theorem not_wouldFuse_of_quote {mark : Char} (quote : isExpressionQuote mark = true)
    (span : Span) : wouldFuse mark span = false := by
  have plain : isTokenWord mark = false ∧ isOperatorChar mark = false := by
    simp only [isExpressionQuote, Bool.or_eq_true, beq_iff_eq] at quote
    rcases quote with (rfl | rfl) | rfl <;> decide
  cases head : span.text.head? <;> simp [wouldFuse, head, plain]

private theorem not_isWhiteSpace_of_isExpressionQuote {mark : Char}
    (quote : isExpressionQuote mark = true) : Unicode.isWhiteSpace mark = false := by
  simp only [isExpressionQuote, Bool.or_eq_true, beq_iff_eq] at quote
  rcases quote with (rfl | rfl) | rfl <;> decide

private theorem regex_last (edit : language.Edit source pieces)
    (split : pieces = earlier ++ piece :: later) (literal : piece.span.kind = .stringLiteral)
    (opens : piece.span.text.head? = some '/') :
    ∃ c, piece.span.text.getLast? = some c ∧ (c = '/' ∨ Unicode.isAlphanumeric c = true) := by
  have here := edit.readsAt split (by simp [literal])
  have token : piece.span.token = ⟨.stringLiteral, piece.span.text⟩ := by rw [Span.token, literal]
  rw [token] at here
  obtain ⟨c, last, ⟨-, other⟩ | ⟨-, ends⟩⟩ := here.literal_last edit.conventional
  · exact absurd opens other
  · exact ⟨c, last, ends⟩

/-- No kept piece fuses with what is written after it exactly if no two of them collide. -/
theorem sound_iff (edit : language.Edit source pieces) :
    language.Sound [] pieces ↔ ¬Collision language pieces := by
  constructor
  · rintro sound (⟨meet, literal, opens, closes, goesOn⟩ | ⟨meet, literal, whole, absent, triples, goesOn⟩
      | @⟨earlier, later, piece, split, regexes, code, _, _, whole, allowed, closes⟩)
    · obtain ⟨earlier, later, split, content, head⟩ :=
        written_of_meet edit meet closes (by decide) (not_wouldFuse_of_slash goesOn)
      exact sound earlier _ later split content (.flag literal ⟨opens, by rwa [List.nil_append, head]⟩)
    · have quote := isExpressionQuote_of_triples edit.conventional triples
      obtain ⟨earlier, later, split, content, head⟩ := written_of_meet edit meet (by simp [whole])
        (not_isWhiteSpace_of_isExpressionQuote quote) (not_wouldFuse_of_quote quote _)
      refine sound earlier _ later split content (.quote literal ⟨_, _, whole, absent, triples, ?_⟩)
      rw [List.nil_append, head, goesOn]
    · have content := edit.isContent_of_code (by simp [split]) code
      exact sound earlier _ later split content (.slash regexes code _ _ whole allowed closes)
  · intro apart before piece after split content fuses
    rw [List.nil_append] at fuses
    cases fuses with
    | flag literal flagged =>
      obtain ⟨opens, goesOn⟩ := flagged
      obtain ⟨d, head, flag⟩ := (Option.any_eq_true _ _).mp goesOn
      obtain ⟨c, last, ends⟩ := regex_last edit split literal opens
      have slash : '/' ∈ piece.span.text := List.mem_of_head? opens
      have filled : piece.span.text.any (!Unicode.isWhiteSpace ·) = true :=
        List.any_eq_true.mpr ⟨'/', slash, by decide⟩
      obtain ⟨right, meet, start, separate⟩ := meet_of_written edit split content head
        (not_isBlankChar_of_isNameChar (by simp [isNameChar, flag])) (fun there =>
          (edit.not_goes_on split literal).1 ⟨opens, by simp [there, flag]⟩) last filled
      rcases ends with rfl | another
      · exact apart (.flag meet literal opens last (by simp [start, flag]))
      · -- two words would have been kept apart
        have words := (not_wouldFuse separate start).1
        simp [isTokenWord, isNameChar, flag, another] at words
    | quote literal tripled =>
      obtain ⟨lead, mark, whole, absent, triples, head⟩ := tripled
      have quote := isExpressionQuote_of_triples edit.conventional triples
      have last : piece.span.text.getLast? = some mark := by simp [whole]
      have filled : piece.span.text.any (!Unicode.isWhiteSpace ·) = true :=
        List.any_eq_true.mpr ⟨mark, List.mem_of_getLast? last,
          by simp [not_isWhiteSpace_of_isExpressionQuote quote]⟩
      obtain ⟨right, meet, start, -⟩ := meet_of_written edit split content head
        (not_isBlankChar_of_start (.inr (.inl quote))) (fun there =>
          (edit.not_goes_on split literal).2 ⟨lead, mark, whole, absent, triples, there⟩) last filled
      exact apart (.quote meet literal whole absent triples start)
    | slash regexes code start rest whole allowed closes =>
      exact apart (.slash split regexes code whole allowed closes)

end Language

end CommentStrip
