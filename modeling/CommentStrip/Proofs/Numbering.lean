import CommentStrip.Decision.Rules
import CommentStrip.Proofs.Edit
import Mathlib.Algebra.GroupWithZero.Nat

/-!
# Lines on which spans start

A span starts on the line after the line ends before it, those inside earlier spans included. The
lines that may hold an encoding declaration are told from this: a span starts on one of them unless
two spans before it are not blank, with a line end between them and another one after them.
-/
namespace CommentStrip

namespace Text

/-- The number of lines that end in a text on its own. -/
def lineEnds : Text → Nat
  | [] => 0
  | c :: rest =>
    if c = '\n' ∨ (c = '\r' ∧ rest.head? ≠ some '\n') then lineEnds rest + 1 else lineEnds rest

theorem lineEnds_eq_zero {text : Text} : lineEnds text = 0 ↔ ∀ c ∈ text, isLineBreak c = false := by
  induction text with
  | nil => simp [lineEnds]
  | cons c rest ih =>
    rw [List.forall_mem_cons, ← ih, lineEnds]
    split
    next ends =>
      have lineBreak : isLineBreak c = true := by
        rcases ends with rfl | ⟨rfl, -⟩ <;> rfl
      simp [lineBreak]
    next inside =>
      refine ⟨fun none => ⟨?_, none⟩, And.right⟩
      -- a carriage return that does not end a line is followed by a line feed that does
      by_contra lineBreak
      simp only [isLineBreak, Bool.not_eq_false, Bool.or_eq_true, beq_iff_eq] at lineBreak
      rcases lineBreak with rfl | rfl
      · simp at inside
      · have next : rest.head? = some '\n' := by simpa using inside
        obtain ⟨others, rfl⟩ := List.head?_eq_some_iff.mp next
        simp [lineEnds] at none

/-- One text ends with a carriage return, and the other begins with the line feed of the same line
break. -/
def CutsLineBreak (first second : Text) : Prop :=
  first.getLast? = some '\r' ∧ second.head? = some '\n'

theorem not_cutsLineBreak_tail {c : Char} {first second : Text}
    (whole : ¬CutsLineBreak (c :: first) second) : ¬CutsLineBreak first second := by
  rintro ⟨last, head⟩
  obtain ⟨before, rfl⟩ := List.getLast?_eq_some_iff.mp last
  exact whole ⟨by rw [← List.cons_append, List.getLast?_concat], head⟩

/-- What comes next to a character matters to the end of a line only if it is a line feed. -/
private theorem head?_append_ne_feed {first second : Text}
    (whole : first = [] → second.head? ≠ some '\n') :
    (first ++ second).head? ≠ some '\n' ↔ first.head? ≠ some '\n' := by
  cases first with
  | nil => exact iff_of_true (whole rfl) (by simp)
  | cons d rest => rfl

/-- Whether a character ends a line is settled by the text it stands in. -/
theorem endsLine_append {c : Char} {first second : Text}
    (whole : ¬CutsLineBreak (c :: first) second) :
    (c = '\n' ∨ c = '\r' ∧ (first ++ second).head? ≠ some '\n')
      ↔ (c = '\n' ∨ c = '\r' ∧ first.head? ≠ some '\n') := by
  refine or_congr_right (and_congr_right ?_)
  rintro rfl
  refine head?_append_ne_feed ?_
  rintro rfl feed
  exact whole ⟨rfl, feed⟩

/-- The lines that end in two texts are those of both, unless a line break is cut. -/
theorem lineEnds_append {first second : Text} (whole : ¬CutsLineBreak first second) :
    lineEnds (first ++ second) = lineEnds first + lineEnds second := by
  induction first with
  | nil => exact (Nat.zero_add _).symm
  | cons c rest ih =>
    simp only [List.cons_append, lineEnds, endsLine_append whole, ih (not_cutsLineBreak_tail whole)]
    split <;> omega

theorem not_cutsLineBreak_of_plain {text : Text} (plain : ∀ c ∈ text, isLineBreak c = false)
    (rest : Text) : ¬CutsLineBreak text rest := fun cut =>
  absurd (plain _ (List.mem_of_getLast? cut.1)) (by decide)

end Text

namespace Position

theorem line_after (place : Position) (text : Text) :
    (place.after text).line = place.line + text.lineEnds := by
  induction text generalizing place with
  | nil => rfl
  | cons c rest ih =>
    simp only [after, Text.lineEnds]
    split
    · rw [ih, Nat.add_assoc, Nat.add_comm 1]
    · exact ih _

/-- A text measured in two pieces gives the same place, unless a line break is cut. -/
theorem after_append {first second : Text} (whole : ¬Text.CutsLineBreak first second)
    (place : Position) : place.after (first ++ second) = (place.after first).after second := by
  induction first generalizing place with
  | nil => rfl
  | cons c rest ih =>
    simp only [List.cons_append, after, Text.endsLine_append whole,
      ih (Text.not_cutsLineBreak_tail whole)]
    split <;> rfl

end Position

namespace Token

/-- The number of lines that end in tokens. -/
def lineEnds (tokens : List Token) : Nat :=
  (tokens.map fun token => Text.lineEnds token.text).sum

@[simp] theorem lineEnds_nil : lineEnds [] = 0 := rfl

@[simp] theorem lineEnds_cons (token : Token) (tokens : List Token) :
    lineEnds (token :: tokens) = Text.lineEnds token.text + lineEnds tokens := by
  simp [lineEnds]

@[simp] theorem lineEnds_append (first second : List Token) :
    lineEnds (first ++ second) = lineEnds first + lineEnds second := by
  simp [lineEnds]

/-- Two tokens that are not blank come first, with the end of a line between them and another one
after them. -/
def PastHeader (tokens : List Token) : Prop :=
  ∃ first one second two third, tokens = first ++ one :: (second ++ two :: third)
    ∧ one.kind.isBlank = false ∧ two.kind.isBlank = false
    ∧ 0 < lineEnds (one :: second) ∧ 0 < lineEnds (two :: third)

end Token

namespace Span

/-- Where a span starts. -/
def place (span : Span) : Position :=
  ⟨span.start, span.line, span.column⟩

/-- The first of the spans starts at `place`, and each later one where the text of the one before it
ends. -/
def Placed : (place : Position) → List Span → Prop
  | _, [] => True
  | place, span :: rest => span.place = place ∧ Placed (place.after span.text) rest

/-- Joining code does not matter, since no line ends in it. -/
private theorem placed_attach {place : Position} {span : Span} {spans : List Span}
    (start : span.place = place)
    (plain : span.kind = .code → ∀ c ∈ span.text, isLineBreak c = false)
    (placed : Placed (place.after span.text) spans) : Placed place (attach span spans) := by
  cases spans with
  | nil => exact ⟨start, trivial⟩
  | cons next others =>
    simp only [attach]
    split
    next code =>
      have whole := Text.not_cutsLineBreak_of_plain (plain code.1) next.text
      refine ⟨start, ?_⟩
      rw [Position.after_append whole]
      exact placed.2
    · exact ⟨start, placed⟩

private theorem placed_coalesce {place : Position} {spans : List Span}
    (plain : ∀ span ∈ spans, span.kind = .code → ∀ c ∈ span.text, isLineBreak c = false)
    (placed : Placed place spans) : Placed place (coalesce spans) := by
  induction spans generalizing place with
  | nil => trivial
  | cons span rest ih =>
    rw [List.forall_mem_cons] at plain
    exact placed_attach placed.1 plain.1 (ih plain.2 placed.2)

namespace Placed

variable {place : Position} {earlier later : List Span} {span : Span}

/-- A span starts on the line that the line ends in the spans before it lead to. -/
theorem line_eq (placed : Placed place (earlier ++ span :: later)) :
    span.line = place.line + Token.lineEnds (earlier.map Span.token) := by
  induction earlier generalizing place with
  | nil => exact congrArg Position.line placed.1
  | cons first rest ih =>
    rw [ih placed.2, Position.line_after, List.map_cons, Token.lineEnds_cons, Nat.add_assoc]
    rfl

/-- A span starts where the text of the spans before it ends, if no line break is cut between them. -/
theorem place_eq (placed : Placed place (earlier ++ span :: later))
    (whole : ∀ first one second, earlier = first ++ one :: second →
      ¬Text.CutsLineBreak one.text (second.flatMap Span.text)) :
    span.place = place.after (earlier.flatMap Span.text) := by
  induction earlier generalizing place with
  | nil => exact placed.1
  | cons first rest ih =>
    have inside : ∀ before one second, rest = before ++ one :: second →
        ¬Text.CutsLineBreak one.text (second.flatMap Span.text) := by
      rintro before one second rfl
      exact whole (first :: before) one second rfl
    rw [ih placed.2 inside, List.flatMap_cons, Position.after_append (whole [] first rest rfl)]

end Placed

end Span

theorem pair_sublist_iff {α : Type} {one two : α} {items : List α} :
    [one, two].Sublist items
      ↔ ∃ first second third, items = first ++ one :: (second ++ two :: third) := by
  rw [List.cons_sublist_iff]
  constructor
  · rintro ⟨before, after, rfl, member, later⟩
    obtain ⟨first, middle, rfl⟩ := List.append_of_mem member
    obtain ⟨more, third, rfl⟩ := List.append_of_mem (List.singleton_sublist.mp later)
    exact ⟨first, middle ++ more, third, by simp⟩
  · rintro ⟨first, second, third, rfl⟩
    exact ⟨first ++ [one], second ++ two :: third, by simp, by simp, by simp⟩

/-- Of the first number and the first one that differs from it, a number in a sorted list is one
unless two numbers before it grow up to it. -/
private theorem header_iff {first number : Nat} {before after : List Nat}
    (sorted : (first :: (before ++ number :: after)).Pairwise (· ≤ ·)) :
    number ∈ first :: ((before ++ number :: after).find? (· != first)).toList
      ↔ ¬∃ one two, [one, two].Sublist (first :: before) ∧ one < two ∧ two < number := by
  obtain ⟨least, rest⟩ := List.pairwise_cons.mp sorted
  obtain ⟨-, -, ordered⟩ := List.pairwise_append.mp rest
  have upTo (one : Nat) (member : one ∈ first :: before) : first ≤ one := by
    rcases List.mem_cons.mp member with rfl | inside
    · exact Nat.le_refl _
    · exact least one (List.mem_append_left _ inside)
  -- the first number is on a header line, and nothing before it is smaller
  by_cases same : number = first
  · refine iff_of_true (by simp [same]) ?_
    rintro ⟨one, two, pair, -, below⟩
    have := upTo two (pair.subset (by simp))
    omega
  have fits : (number :: after).find? (· != first) = some number := by simp [same]
  rw [List.find?_append, fits]
  -- look for the first number that differs, before or at the one in question
  cases found : before.find? (· != first) with
  | none =>
    have all : ∀ one ∈ before, one = first := by simpa using found
    refine iff_of_true (by simp) ?_
    rintro ⟨one, two, pair, grows, -⟩
    have := upTo one (pair.subset (by simp))
    have : two = first := by
      rcases List.mem_cons.mp (pair.subset (show two ∈ [one, two] by simp)) with rfl | inside
      · rfl
      · exact all two inside
    omega
  | some second =>
    obtain ⟨other, start, tail, rfl, equal⟩ := List.find?_eq_some_iff_append.mp found
    have other : second ≠ first := by simpa using other
    have above := upTo second (by simp)
    have below := ordered second (by simp) number (by simp)
    by_cases here : number = second
    · refine iff_of_true (by simp [here]) ?_
      rintro ⟨one, two, pair, grows, less⟩
      have := upTo one (pair.subset (by simp))
      -- the second of the two differs from the first number, so it does not come before `second`
      rcases List.mem_cons.mp (pair.subset (show two ∈ [one, two] by simp)) with rfl | inside
      · omega
      · rcases List.mem_append.mp inside with early | late
        · have : two = first := by simpa using equal two early
          omega
        · have := (List.pairwise_append.mp (List.pairwise_append.mp rest).1).2.1
          rcases List.mem_cons.mp late with rfl | after
          · omega
          · have := (List.pairwise_cons.mp this).1 two after
            omega
    · refine iff_of_false (by simp [here, same]) ?_
      rw [not_not]
      refine ⟨first, second, ?_, by omega, by omega⟩
      exact pair_sublist_iff.mpr ⟨[], start, tail, rfl⟩

namespace Language

variable {language : Language} {source : Text} {spans earlier later : List Span} {span : Span}

private theorem not_isLineBreak_of_code {cursor : Cursor} {c : Char} {rest : Text} {lexeme : Lexeme}
    (found : language.lexemeAt cursor (c :: rest) = .ok lexeme) (code : lexeme.kind = .code) :
    isLineBreak c = false := by
  cases takes_of_lexemeAt found with
  | code unquoted noRegex noBlock noLine noNewline noWhitespace =>
    exact newlineAt?_eq_none.mp noNewline
  | _ => simp at code

private theorem placed_lex (language : Language) (cursor : Cursor) (run text : Text) :
    Span.Placed cursor.position (language.lex cursor run text).lexemes
      ∧ ∀ lexeme ∈ (language.lex cursor run text).lexemes, lexeme.kind = .code →
        ∀ c ∈ lexeme.text, isLineBreak c = false := by
  fun_induction Language.lex language cursor run text with
  | case1 => exact ⟨trivial, by simp⟩
  | case2 => exact ⟨trivial, by simp⟩
  | case3 cursor run c rest lexeme found text later ih =>
    refine ⟨⟨rfl, ih.1⟩, ?_⟩
    rw [List.forall_mem_cons]
    refine ⟨fun code => ?_, ih.2⟩
    change lexeme.kind = .code at code
    -- code is a single character, which is no line break since one would be taken before
    have single : text = [c] := by simp [text, more_of_code found code]
    rw [Span.covering, single, List.forall_mem_singleton]
    exact not_isLineBreak_of_code found code

/-- The spans of a source start where the text of those before them ends. -/
theorem placed_of_spans (scanned : language.spans source = .ok spans) :
    Span.Placed .start spans := by
  obtain ⟨-, rfl⟩ := lex_of_spans scanned
  obtain ⟨placed, plain⟩ := placed_lex language .start [] source
  exact Span.placed_coalesce plain placed

/-- A span starts on the line that the line ends in the spans before it lead to. -/
theorem line_of_spans (scanned : language.spans source = .ok (earlier ++ span :: later)) :
    span.line = 1 + Token.lineEnds (earlier.map Span.token) :=
  (placed_of_spans scanned).line_eq

/-- Of two spans, the second starts after the line ends of the first and of those between them. -/
private theorem line_of_later {first second third : List Span} {one two : Span}
    (scanned : language.spans source = .ok (first ++ one :: (second ++ two :: third))) :
    two.line = one.line + Token.lineEnds ((one :: second).map Span.token) := by
  have here := line_of_spans scanned
  rw [← List.cons_append, ← List.append_assoc] at scanned
  have there := line_of_spans scanned
  rw [List.map_append, Token.lineEnds_append] at there
  omega

/-- Spans start on later and later lines. -/
theorem sorted_of_spans (scanned : language.spans source = .ok spans) :
    (spans.map Span.line).Pairwise (· ≤ ·) := by
  rw [List.pairwise_map, List.pairwise_iff_forall_sublist]
  -- of two spans, the second starts on the line of the first or on a later one
  intro one two pair
  obtain ⟨first, second, third, rfl⟩ := pair_sublist_iff.mp pair
  have := line_of_later scanned
  omega

/-- Two spans that are not blank come before another one on lines of their own. -/
theorem pastHeader_iff (scanned : language.spans source = .ok (earlier ++ span :: later)) :
    Token.PastHeader (earlier.map Span.token)
      ↔ ∃ one two, [one, two].Sublist ((earlier.filter (!·.kind.isBlank)).map Span.line)
        ∧ one < two ∧ two < span.line := by
  constructor
  · rintro ⟨first, one, second, two, third, whole, solid, alsoSolid, ends, alsoEnds⟩
    -- the two tokens are those of two spans, in the same order
    obtain ⟨before, _, rfl, rfl, fromOne⟩ := List.map_eq_append_iff.mp whole
    obtain ⟨left, _, rfl, rfl, afterOne⟩ := List.map_eq_cons_iff.mp fromOne
    obtain ⟨middle, _, rfl, rfl, fromTwo⟩ := List.map_eq_append_iff.mp afterOne
    obtain ⟨right, third, rfl, rfl, rfl⟩ := List.map_eq_cons_iff.mp fromTwo
    have inside : [left, right].Sublist (before ++ left :: (middle ++ right :: third)) :=
      pair_sublist_iff.mpr ⟨before, middle, third, rfl⟩
    have pair := inside.filter (!·.kind.isBlank)
    have kept : [left, right].filter (!·.kind.isBlank) = [left, right] := by
      simp [show left.kind.isBlank = false from solid,
        show right.kind.isBlank = false from alsoSolid]
    rw [kept] at pair
    rw [List.append_assoc, List.cons_append, List.append_assoc, List.cons_append] at scanned
    have lines := line_of_later scanned
    rw [← List.cons_append, ← List.append_assoc] at scanned
    have alsoLines := line_of_later scanned
    refine ⟨left.line, right.line, pair.map Span.line, ?_, ?_⟩
    · rw [List.map_cons] at lines
      omega
    · rw [List.map_cons] at alsoLines
      omega
  · rintro ⟨one, two, pair, grows, alsoGrows⟩
    -- the two lines are those of two spans that are not blank
    obtain ⟨both, inside, made⟩ := List.sublist_map_iff.mp pair
    obtain ⟨left, _, rfl, rfl, tail⟩ := List.map_eq_cons_iff.mp made.symm
    obtain ⟨right, _, rfl, rfl, none⟩ := List.map_eq_cons_iff.mp tail
    obtain rfl := List.map_eq_nil_iff.mp none
    obtain ⟨first, second, third, rfl⟩ := pair_sublist_iff.mp (inside.trans List.filter_sublist)
    have solid (other : Span) (member : other ∈ [left, right]) : other.kind.isBlank = false := by
      simpa using (List.mem_filter.mp (inside.subset member)).2
    rw [List.append_assoc, List.cons_append, List.append_assoc, List.cons_append] at scanned
    have lines := line_of_later scanned
    rw [← List.cons_append, ← List.append_assoc] at scanned
    have alsoLines := line_of_later scanned
    refine ⟨first.map Span.token, left.token, second.map Span.token, right.token,
      third.map Span.token, by simp, solid left (by simp), solid right (by simp), ?_, ?_⟩
    · rw [List.map_cons] at lines
      omega
    · rw [List.map_cons] at alsoLines
      omega

/-- A span is on one of the header lines unless two spans that are not blank come before it, each
with the end of a line after it. -/
theorem mem_headerLines_iff (scanned : language.spans source = .ok (earlier ++ span :: later))
    (solid : span.kind.isBlank = false) :
    span.line ∈ headerLines (earlier ++ span :: later)
      ↔ ¬Token.PastHeader (earlier.map Span.token) := by
  -- among the lines of the spans that are not blank, this is a question about numbers
  have lines : (earlier ++ span :: later).filter (!·.kind.isBlank)
      = earlier.filter (!·.kind.isBlank) ++ span :: later.filter (!·.kind.isBlank) := by
    simp [solid]
  have sorted : (((earlier ++ span :: later).filter (!·.kind.isBlank)).map Span.line).Pairwise
      (· ≤ ·) := (sorted_of_spans scanned).sublist (List.filter_sublist.map Span.line)
  rw [lines, List.map_append, List.map_cons] at sorted
  rw [pastHeader_iff scanned, headerLines, lines, List.map_append, List.map_cons]
  cases before : (earlier.filter (!·.kind.isBlank)).map Span.line with
  | nil => simp
  | cons first rest =>
    rw [before] at sorted
    exact header_iff sorted

end Language

end CommentStrip
