import CommentStrip.Proofs.Gap
import Mathlib.Data.List.Chain

/-!
# Seams

A rewritten text is followed from one kept piece to the next. What is written after a kept piece
is a seam, the blanks that are left of the gap up to the next one, then this piece, then what is
written after it.
-/
namespace CommentStrip

/-- The text of pieces, line by line, without the removed ones. -/
def writeLines (pieces : List Piece) : Text :=
  (lineGroups pieces).flatMap writeGroup

/-- What is written after the piece, given the pieces before and after it. -/
def writtenAfter (earlier : List Piece) (piece : Piece) (later : List Piece) : Text :=
  (writeLines (earlier ++ piece :: later)).drop (writeLines (earlier ++ [piece])).length

/-- The pieces of a scanned text: each is regular, and a line comment ends its line. -/
structure Regular (pieces : List Piece) : Prop where
  each : ∀ piece ∈ pieces, piece.Regular
  comments : pieces.IsChain fun piece next =>
    piece.span.kind = .lineComment → next.span.kind = .newline

theorem Regular.left {first second : List Piece} (regular : Regular (first ++ second)) :
    Regular first :=
  ⟨fun piece member => regular.each piece (List.mem_append_left _ member),
    regular.comments.left_of_append⟩

theorem Regular.right {first second : List Piece} (regular : Regular (first ++ second)) :
    Regular second :=
  ⟨fun piece member => regular.each piece (List.mem_append_right _ member),
    regular.comments.right_of_append⟩

/-- The blanks that rewriting leaves of a gap, between two kept pieces or the ends of the text. -/
structure Seam (last : Option Piece) (gap : List Piece) (next : Option Piece) (blanks : Text) :
    Prop where
  blank : ∀ c ∈ blanks, isBlankChar c = true
  unchanged : (∀ piece ∈ gap, piece.removed = false) → blanks = Piece.textOf gap
  broken : Draft.breaks blanks = true → gap.any (·.span.containsLineBreak) = true
  newline : ∀ piece ∈ gap.head?, piece.isNewline = true → last.isSome = true →
    ∃ more, blanks = piece.span.text ++ more
  grows : last.isSome = true → (∃ piece ∈ gap, piece.isNewline = true) →
    Draft.breaks blanks = true
  tight : ∀ left ∈ last, ∀ right ∈ next, left.span.text.any (!Unicode.isWhiteSpace ·) = true →
    (blanks = [] ↔ gap = []
      ∨ (∀ piece ∈ gap, piece.removed = true ∧ piece.span.containsLineBreak = false)
        ∧ left.span.text.getLast?.any (wouldFuse · right.span) = false)

section Lines

variable {piece : Piece} {pieces line rest earlier later : List Piece}

/-- A list of pieces begins with a line, which is closed by a line break or by the end. -/
inductive FirstLine : List Piece → List Piece → List Piece → Prop where
  | last {line : List Piece} (unbroken : ∀ piece ∈ line, piece.isNewline = false) :
    FirstLine line line []
  | ended {body : List Piece} {newline : Piece} (rest : List Piece)
    (unbroken : ∀ piece ∈ body, piece.isNewline = false) (ends : newline.isNewline = true) :
    FirstLine (body ++ newline :: rest) (body ++ [newline]) rest

theorem FirstLine.cons (first : FirstLine pieces line rest) (same : piece.isNewline = false) :
    FirstLine (piece :: pieces) (piece :: line) rest := by
  cases first with
  | last unbroken => exact .last (by simpa [same] using unbroken)
  | @ended body _ _ unbroken ends =>
    have longer : ∀ other ∈ piece :: body, other.isNewline = false := by
      simpa [same] using unbroken
    exact .ended rest longer ends

theorem exists_firstLine (pieces : List Piece) : ∃ line rest, FirstLine pieces line rest := by
  induction pieces with
  | nil => exact ⟨[], [], .last (by simp)⟩
  | cons piece others ih =>
    cases newline : piece.isNewline with
    | true =>
      have none : ∀ piece ∈ ([] : List Piece), piece.isNewline = false := by simp
      exact ⟨[piece], others, .ended others none newline⟩
    | false =>
      obtain ⟨line, rest, first⟩ := ih
      exact ⟨piece :: line, rest, first.cons newline⟩

theorem FirstLine.eq_append (first : FirstLine pieces line rest) : pieces = line ++ rest := by
  cases first with
  | last => simp
  | ended => simp

theorem FirstLine.append (first : FirstLine pieces line rest)
    (unbroken : ∀ piece ∈ earlier, piece.isNewline = false) :
    FirstLine (earlier ++ pieces) (earlier ++ line) rest := by
  induction earlier with
  | nil => exact first
  | cons piece others ih =>
    exact (ih fun other member => unbroken other (List.mem_cons_of_mem _ member)).cons
      (unbroken piece List.mem_cons_self)

theorem lineGroups_newline (newline : piece.isNewline = true) :
    lineGroups (piece :: rest) = [piece] :: lineGroups rest := by
  have kind : piece.span.kind = .newline := by simpa [Piece.isNewline] using newline
  rw [lineGroups, if_pos kind]

theorem lineGroups_other (same : piece.isNewline = false) :
    lineGroups (piece :: rest) = match lineGroups rest with
      | [] => [[piece]]
      | group :: others => (piece :: group) :: others := by
  have kind : piece.span.kind ≠ .newline := by simpa [Piece.isNewline] using same
  rw [lineGroups]
  exact if_neg kind

theorem lineGroups_of_unbroken (unbroken : ∀ piece ∈ line, piece.isNewline = false)
    (nonempty : line ≠ []) : lineGroups line = [line] := by
  induction line with
  | nil => exact absurd rfl nonempty
  | cons piece others ih =>
    rw [lineGroups_other (unbroken piece List.mem_cons_self)]
    cases others with
    | nil => rfl
    | cons next more =>
      rw [ih (fun other member => unbroken other (List.mem_cons_of_mem _ member))
        (List.cons_ne_nil _ _)]

theorem lineGroups_append (unbroken : ∀ piece ∈ line, piece.isNewline = false)
    (newline : piece.isNewline = true) :
    lineGroups (line ++ piece :: rest) = (line ++ [piece]) :: lineGroups rest := by
  induction line with
  | nil => exact lineGroups_newline newline
  | cons first others ih =>
    rw [List.cons_append, lineGroups_other (unbroken first List.mem_cons_self),
      ih fun other member => unbroken other (List.mem_cons_of_mem _ member)]
    rfl

/-- A line is a part of the pieces, in which only the last one may be a line break. -/
theorem exists_split_of_mem_lineGroups (member : line ∈ lineGroups pieces) :
    ∃ earlier later, pieces = earlier ++ (line ++ later)
      ∧ ∀ piece ∈ line.dropLast, piece.isNewline = false := by
  induction pieces generalizing line with
  | nil => simp [lineGroups] at member
  | cons piece others ih =>
    have further (inside : line ∈ lineGroups others) :
        ∃ earlier later, piece :: others = earlier ++ (line ++ later)
          ∧ ∀ piece ∈ line.dropLast, piece.isNewline = false := by
      obtain ⟨earlier, later, split, unbroken⟩ := ih inside
      exact ⟨piece :: earlier, later, congrArg (piece :: ·) split, unbroken⟩
    cases newline : piece.isNewline with
    | true =>
      rw [lineGroups_newline newline, List.mem_cons] at member
      rcases member with rfl | inside
      · exact ⟨[], others, rfl, by simp⟩
      · exact further inside
    | false =>
      rw [lineGroups_other newline] at member
      cases groups : lineGroups others with
      | nil =>
        obtain rfl : line = [piece] := by simpa [groups] using member
        exact ⟨[], others, rfl, by simp⟩
      | cons group more =>
        rw [groups, List.mem_cons] at member
        rcases member with rfl | inside
        · -- the piece begins the line that the others begin with
          obtain ⟨-, -, -, unbroken⟩ := ih (groups ▸ List.mem_cons_self : group ∈ lineGroups others)
          have whole := flatten_lineGroups others
          rw [groups, List.flatten_cons] at whole
          refine ⟨[], more.flatten, by simp [whole], ?_⟩
          cases group with
          | nil => simp
          | cons next body => simpa [newline] using unbroken
        · exact further (groups ▸ List.mem_cons_of_mem _ inside)

/-- Writing begins with the first line. -/
theorem writeLines_of_firstLine (first : FirstLine pieces line rest) :
    writeLines pieces = writeGroup line ++ writeLines rest := by
  cases first with
  | ended _ unbroken ends => simp [writeLines, lineGroups_append unbroken ends]
  | last unbroken =>
    by_cases empty : pieces = []
    · simp [empty, writeLines, lineGroups, writeGroup]
    · simp [writeLines, lineGroups_of_unbroken unbroken empty, lineGroups]

theorem FirstLine.mem_lineGroups (first : FirstLine pieces line rest) (nonempty : line ≠ []) :
    line ∈ lineGroups pieces := by
  cases first with
  | ended _ unbroken ends =>
    rw [lineGroups_append unbroken ends]
    exact List.mem_cons_self
  | last unbroken =>
    rw [lineGroups_of_unbroken unbroken nonempty]
    exact List.mem_cons_self

/-- The pieces before a place are complete lines and a part of a line, to which what follows is
added. -/
theorem exists_lineGroups (earlier : List Piece) :
    ∃ groups line, earlier = groups.flatten ++ line ∧ (∀ piece ∈ line, piece.isNewline = false)
      ∧ ∀ later, lineGroups (earlier ++ later) = groups ++ lineGroups (line ++ later) := by
  induction earlier with
  | nil => exact ⟨[], [], rfl, by simp, fun later => rfl⟩
  | cons piece rest ih =>
    obtain ⟨groups, line, rfl, unbroken, follows⟩ := ih
    cases newline : piece.isNewline with
    | true =>
      refine ⟨[piece] :: groups, line, by simp, unbroken, fun later => ?_⟩
      rw [List.cons_append, lineGroups_newline newline, follows, List.cons_append]
    | false =>
      -- the piece goes into the first line, which may not be complete
      cases groups with
      | nil =>
        refine ⟨[], piece :: line, rfl, ?_, fun later => rfl⟩
        exact List.forall_mem_cons.mpr ⟨newline, unbroken⟩
      | cons group others =>
        refine ⟨(piece :: group) :: others, line, by simp, unbroken, fun later => ?_⟩
        rw [List.cons_append, lineGroups_other newline, follows]
        rfl

theorem exists_lines (earlier : List Piece) :
    ∃ written line, (∀ piece ∈ line, piece.isNewline = false)
      ∧ ∀ later, writeLines (earlier ++ later) = written ++ writeLines (line ++ later) := by
  obtain ⟨groups, line, -, unbroken, follows⟩ := exists_lineGroups earlier
  refine ⟨groups.flatMap writeGroup, line, unbroken, fun later => ?_⟩
  rw [writeLines, follows, List.flatMap_append]
  rfl

theorem writeGroup_of_content (content : line.any Piece.isContent = true) :
    writeGroup line = (Draft.empty.after line).written.reverse := by
  unfold writeGroup
  split
  next kept =>
    have all : ∀ piece ∈ line, piece.removed = false := by simpa using kept
    rw [Draft.after_eq_through, Draft.through_of_kept all rfl]
    simp [Draft.empty, Piece.textOf]
  · rfl

theorem writeGroup_of_gap (empty : ∀ piece ∈ line, piece.isContent = false) :
    writeGroup line = if line.all (!·.removed) then Piece.textOf line else [] := by
  have none : line.any Piece.isContent = false := by simpa using empty
  simp [writeGroup, none, Piece.textOf]

end Lines

namespace Seam

variable {last next : Option Piece} {gap more : List Piece} {blanks others : Text}

/-- At the start of a line or text, seams are put together. -/
theorem append_start (first : Seam none gap none blanks) (second : Seam none more next others) :
    Seam none (gap ++ more) next (blanks ++ others) where
  blank := by
    intro c member
    rcases List.mem_append.mp member with left | right
    · exact first.blank c left
    · exact second.blank c right
  unchanged kept := by
    rw [Piece.textOf_append,
      first.unchanged fun piece member => kept piece (List.mem_append_left _ member),
      second.unchanged fun piece member => kept piece (List.mem_append_right _ member)]
  broken := by
    simp only [Draft.breaks, List.any_append, Bool.or_eq_true]
    exact Or.imp first.broken second.broken
  newline := by simp
  grows := by simp
  tight := by simp

private theorem atStart (first : Seam last gap none blanks) : Seam none gap none blanks :=
  { first with newline := by simp, grows := by simp, tight := by simp }

/-- A line break in the first gap keeps the two sides apart. -/
theorem append_line {last : Piece} (first : Seam (some last) gap none blanks)
    (ends : ∃ piece ∈ gap, piece.isNewline = true ∧ piece.removed = false)
    (second : Seam none more next others) :
    Seam (some last) (gap ++ more) next (blanks ++ others) where
  blank := (first.atStart.append_start second).blank
  unchanged := (first.atStart.append_start second).unchanged
  broken := (first.atStart.append_start second).broken
  grows isSome _ := by
    obtain ⟨ending, member, newline, -⟩ := ends
    have here := first.grows isSome ⟨ending, member, newline⟩
    rw [Draft.breaks, List.any_append, Bool.or_eq_true]
    exact .inl here
  newline := by
    intro piece head newline isSome
    obtain ⟨ending, member, -⟩ := ends
    cases gap with
    | nil => simp at member
    | cons start rest =>
      obtain ⟨later, rfl⟩ := first.newline piece head newline isSome
      exact ⟨later ++ others, List.append_assoc _ _ _⟩
  tight := by
    intro left _ right _ _
    obtain ⟨ending, member, newline, stays⟩ := ends
    have written : blanks ≠ [] := by
      rintro rfl
      exact absurd (first.grows rfl ⟨ending, member, newline⟩) (by simp [Draft.breaks])
    refine iff_of_false (by simp [written]) ?_
    rintro (none | ⟨removed, -⟩)
    · rw [List.append_eq_nil_iff] at none
      simp [none.1] at member
    · have gone := (removed ending (List.mem_append_left _ member)).1
      rw [stays] at gone
      simp at gone

end Seam

section Writing

variable {piece next : Piece} {earlier gap later line : List Piece}

private theorem empty_gains : Draft.Gains [] false Draft.empty :=
  ⟨[], rfl, by simp, by simp [Draft.breaks]⟩

private theorem isLineBreak_reverse (text : Text) :
    Draft.breaks text.reverse = Draft.breaks text := by
  simp [Draft.breaks]

/-- A line up to its first kept piece. -/
private theorem seam_line_start (regular : ∀ piece ∈ gap, piece.Regular)
    (empty : ∀ piece ∈ gap, piece.isContent = false) (content : next.isContent = true) :
    ∃ blanks, Seam none gap (some next) blanks
      ∧ writeGroup (gap ++ [next]) = blanks ++ next.span.text := by
  obtain ⟨blanks, written, blank, broken⟩ :=
    Draft.gains_through empty_gains (by simp) [next] regular empty
  refine ⟨blanks.reverse, ⟨by simpa using blank, ?_, ?_, by simp, by simp, by simp⟩, ?_⟩
  · intro kept
    rw [Draft.through_of_kept kept rfl] at written
    simp only [Draft.empty, List.append_nil] at written
    rw [← written, List.reverse_reverse]
  · rw [isLineBreak_reverse]
    simpa using broken
  · rw [writeGroup_of_content (by simp [content]), Draft.after_append content, written]
    simp [Draft.after]

/-- A line without kept pieces. -/
private theorem seam_blank_line (regular : ∀ piece ∈ line, piece.Regular)
    (empty : ∀ piece ∈ line, piece.isContent = false) : Seam none line none (writeGroup line) := by
  rw [writeGroup_of_gap empty]
  split
  next kept =>
    have all : ∀ piece ∈ line, piece.removed = false := by simpa using kept
    refine ⟨?_, fun _ => rfl, ?_, by simp, by simp, by simp⟩
    · intro c member
      obtain ⟨piece, inside, character⟩ := List.mem_flatMap.mp member
      have one := regular piece inside
      rcases one.gap_cases (empty piece inside) with ⟨removed, -⟩ | ⟨-, blank⟩
      · simp [all piece inside] at removed
      · exact one.isBlankChar_of_blank blank c character
    · simp only [Draft.breaks, Piece.textOf, List.any_flatMap]
      exact id
  next some =>
    refine ⟨by simp, fun kept => ?_, by simp [Draft.breaks], by simp, by simp, by simp⟩
    exact absurd (by simpa using kept) some

/-- Lines without kept pieces. -/
theorem seam_of_gap (regular : ∀ piece ∈ gap, piece.Regular)
    (empty : ∀ piece ∈ gap, piece.isContent = false) : Seam none gap none (writeLines gap) := by
  induction size : gap.length using Nat.strong_induction_on generalizing gap with
  | _ count ih =>
    obtain ⟨line, rest, first⟩ := exists_firstLine gap
    rw [writeLines_of_firstLine first]
    cases first with
    | last unbroken =>
      simpa [writeLines, lineGroups] using seam_blank_line regular empty
    | @ended body ending _ unbroken ends =>
      have shorter : rest.length < count := by
        rw [List.length_append, List.length_cons] at size
        omega
      rw [List.append_cons, List.forall_mem_append] at regular empty
      rw [List.append_cons]
      exact (seam_blank_line regular.1 empty.1).append_start
        (ih _ shorter regular.2 empty.2 rfl)

/-- The text up to the first kept piece. -/
private theorem seam_start (regular : ∀ piece ∈ gap, piece.Regular)
    (empty : ∀ piece ∈ gap, piece.isContent = false) (content : next.isContent = true) :
    ∃ blanks, Seam none gap (some next) blanks
      ∧ writeLines (gap ++ [next]) = blanks ++ next.span.text := by
  induction size : gap.length using Nat.strong_induction_on generalizing gap with
  | _ count ih =>
    have single : ∀ piece ∈ [next], piece.isNewline = false := by
      simpa using Piece.not_isNewline_of_isContent content
    obtain ⟨line, rest, first⟩ := exists_firstLine gap
    cases first with
    | last unbroken =>
      rw [writeLines_of_firstLine ((FirstLine.last single).append unbroken)]
      obtain ⟨blanks, seam, written⟩ := seam_line_start regular empty content
      exact ⟨blanks, seam, by rw [written]; simp [writeLines, lineGroups]⟩
    | @ended body ending _ unbroken ends =>
      have shorter : rest.length < count := by
        rw [List.length_append, List.length_cons] at size
        omega
      rw [List.append_cons, List.forall_mem_append] at regular empty
      obtain ⟨blanks, seam, written⟩ := ih _ shorter regular.2 empty.2 rfl
      have blankLine := seam_blank_line regular.1 empty.1
      have first : FirstLine (body ++ ending :: (rest ++ [next])) (body ++ [ending])
          (rest ++ [next]) := .ended _ unbroken ends
      refine ⟨_, by simpa using blankLine.append_start seam, ?_⟩
      rw [List.append_assoc, List.cons_append, writeLines_of_firstLine first, written,
        List.append_assoc]

/-- The draft at a kept piece, in front of which `written` stands on the lines before. -/
private structure DraftAt (earlier : List Piece) (piece : Piece) (written : Text) (draft : Draft) :
    Prop where
  writing : draft.skipping = false
  ends : ∃ before, draft.written = piece.span.text.reverse ++ before
  follows : ∀ {later line rest : List Piece}, FirstLine later line rest →
    writeLines (earlier ++ piece :: later)
      = written ++ ((draft.after line).written.reverse ++ writeLines rest)

private theorem exists_draftAt (earlier : List Piece) (content : piece.isContent = true) :
    ∃ written draft, DraftAt earlier piece written draft := by
  obtain ⟨written, current, unbroken, lines⟩ := exists_lines earlier
  refine ⟨written, ⟨piece.span.text.reverse ++ (Draft.empty.through [piece] current).written, false⟩,
    rfl, ⟨_, rfl⟩, fun {later line rest} first => ?_⟩
  have whole := (first.cons (Piece.not_isNewline_of_isContent content)).append unbroken
  rw [lines, writeLines_of_firstLine whole, writeGroup_of_content (by simp [content]),
    Draft.after_append content]

/-- Where something is removed on the rest of its line, a kept piece does not end with a blank: it
is no line comment, which would end the line. -/
theorem not_isInlineBlank_of_removed {rest : List Piece} (content : piece.isContent = true)
    (regular : Regular (piece :: later)) (first : FirstLine later line rest)
    (removed : ∃ other ∈ line, other.removed = true) :
    ∀ c ∈ piece.span.text.getLast?, isInlineBlank c = false := by
  have noComment : piece.span.kind ≠ .lineComment := by
    intro comment
    have ended : ∀ other ∈ later.head?, other.isNewline = true := by
      intro other head
      obtain ⟨others, rfl⟩ := List.head?_eq_some_iff.mp head
      simpa [Piece.isNewline] using (List.isChain_cons_cons.mp regular.comments).1 comment
    obtain ⟨other, member, gone⟩ := removed
    cases first with
    | last unbroken =>
      cases later with
      | nil => simp at member
      | cons start others =>
        have newline := ended start rfl
        simp [unbroken start List.mem_cons_self] at newline
    | @ended body ending _ unbroken newline =>
      cases body with
      | nil =>
        obtain rfl : other = ending := by simpa using member
        simp [(regular.each other (by simp)).kept_of_newline newline] at gone
      | cons start others =>
        have newline := ended start rfl
        simp [unbroken start List.mem_cons_self] at newline
  intro c last
  have other := (regular.each piece List.mem_cons_self).last
    (Piece.not_isBlank_of_isContent content) noComment c last
  simp only [isBlankChar, Bool.or_eq_false_iff] at other
  exact other.1

/-- Text that is written, last character first, and is not empty ends as it does whatever stands
before it. -/
theorem head?_reverse_append {text before : Text} (nonempty : text ≠ []) :
    (text.reverse ++ before).head? = text.getLast? := by
  rw [List.head?_append_of_ne_nil _ (by simpa using nonempty), List.head?_reverse]

private theorem DraftAt.stop {written : Text} {draft : Draft} {rest : List Piece}
    (at_ : DraftAt earlier piece written draft) (content : piece.isContent = true)
    (regular : Regular (piece :: later)) (first : FirstLine later line rest)
    (removed : ∃ other ∈ line, other.removed = true) :
    ∀ c ∈ draft.written.head?, isInlineBlank c = false := by
  obtain ⟨before, ends⟩ := at_.ends
  rw [ends, head?_reverse_append (regular.each piece List.mem_cons_self).nonempty]
  exact not_isInlineBlank_of_removed content regular first removed

private theorem DraftAt.start {written : Text} {draft : Draft}
    (at_ : DraftAt earlier piece written draft) :
    writeLines (earlier ++ [piece]) = written ++ draft.written.reverse := by
  have nothing : FirstLine [] [] [] := .last (by simp)
  simpa [Draft.after, writeLines, lineGroups] using at_.follows nothing

/-- What is written up to a kept piece does not depend on what follows it. -/
theorem writeLines_append (earlier : List Piece) (content : piece.isContent = true)
    (regular : Regular (piece :: later)) :
    writeLines (earlier ++ piece :: later)
      = writeLines (earlier ++ [piece]) ++ writtenAfter earlier piece later := by
  obtain ⟨written, draft, at_⟩ := exists_draftAt earlier content
  obtain ⟨line, rest, first⟩ := exists_firstLine later
  obtain ⟨more, stays⟩ :=
    Draft.exists_append_after (at_.stop content regular first) ⟨[], (List.nil_append _).symm⟩
  have whole := at_.follows first
  rw [stays, List.reverse_append, List.append_assoc, ← List.append_assoc, ← at_.start] at whole
  rw [writtenAfter, whole, List.drop_left]

private theorem DraftAt.writtenAfter_eq {written : Text} {draft : Draft} {rest : List Piece}
    (at_ : DraftAt earlier piece written draft) (content : piece.isContent = true)
    (regular : Regular (piece :: later)) (first : FirstLine later line rest) {more : Text}
    (stays : (draft.after line).written = more ++ draft.written) :
    writtenAfter earlier piece later = more.reverse ++ writeLines rest := by
  have whole := writeLines_append earlier content regular
  rw [at_.follows first, at_.start, stays, List.reverse_append, List.append_assoc,
    List.append_assoc, List.append_cancel_left_eq, List.append_cancel_left_eq] at whole
  exact whole.symm

/-- A line from a kept piece to its end, if no other piece is kept on it. -/
private theorem DraftAt.seam_line_end {written : Text} {draft : Draft} {rest : List Piece}
    (at_ : DraftAt earlier piece written draft) (content : piece.isContent = true)
    (regular : Regular (piece :: later)) (first : FirstLine later line rest)
    (empty : ∀ piece ∈ line, piece.isContent = false) :
    ∃ blanks, (draft.after line).written = blanks ++ draft.written
      ∧ Seam (some piece) line none blanks.reverse := by
  have each : ∀ other ∈ line, other.Regular := by
    intro other member
    refine regular.each other (List.mem_cons_of_mem _ ?_)
    rw [first.eq_append]
    exact List.mem_append_left _ member
  have nothing : Draft.Gains draft.written false draft :=
    ⟨[], rfl, by simp, by simp [Draft.breaks]⟩
  have stop := at_.stop content regular first
  obtain ⟨blanks, stays, blank, broken⟩ := Draft.gains_through nothing stop [] each empty
  rw [← Draft.after_eq_through] at stays
  have unchanged (kept : ∀ other ∈ line, other.removed = false) :
      blanks.reverse = Piece.textOf line := by
    rw [Draft.after_eq_through, Draft.through_of_kept kept at_.writing,
      List.append_cancel_right_eq] at stays
    rw [← stays, List.reverse_reverse]
  refine ⟨blanks, stays, ⟨by simpa using blank, unchanged, ?_, ?_, ?_, by simp⟩⟩
  · rw [isLineBreak_reverse]
    simpa using broken
  · -- a line break that comes first is the whole rest of the line
    intro ending head newline _
    obtain rfl : line = [ending] := by
      cases first with
      | last unbroken =>
        obtain ⟨others, rfl⟩ := List.head?_eq_some_iff.mp head
        simp [unbroken ending List.mem_cons_self] at newline
      | @ended body _ _ unbroken _ =>
        cases body with
        | nil => simpa using head
        | cons start others =>
          obtain rfl : start = ending := by simpa using head
          simp [unbroken start List.mem_cons_self] at newline
    refine ⟨[], ?_⟩
    rw [unchanged (by simpa using (each ending List.mem_cons_self).kept_of_newline newline)]
    simp
  · rintro - ⟨other, member, newline⟩
    rw [isLineBreak_reverse]
    cases first with
    | last unbroken => simp [unbroken other member] at newline
    | @ended body ending _ unbroken ends =>
      rw [List.forall_mem_append] at each empty
      have last := each.2 ending List.mem_cons_self
      have stopBody := fun removed : ∃ piece ∈ body, piece.removed = true =>
        stop (removed.imp fun _ => And.imp_left (List.mem_append_left _))
      obtain ⟨x, before, -, -⟩ :=
        Draft.gains_through nothing stopBody [ending] each.1 empty.1
      have noSpace := Piece.not_isWhitespace_of_isNewline ends
      rw [Draft.after_eq_through, Draft.through_append, List.append_nil] at stays
      simp only [Draft.through, noSpace, Bool.and_false, Bool.false_eq_true, if_false,
        last.kept_of_newline ends, before, ← List.append_assoc, List.append_cancel_right_eq] at stays
      obtain ⟨c, others, whole⟩ := List.exists_cons_of_ne_nil last.nonempty
      have lineBreak := last.newline (by simpa [Piece.isNewline] using ends) c (by simp [whole])
      rw [← stays, Draft.breaks, whole]
      simp [lineBreak]

/-- The gap between two kept pieces of one line. -/
private theorem DraftAt.seam_in_line {written : Text} {draft : Draft}
    (at_ : DraftAt earlier piece written draft) (content : piece.isContent = true)
    (nextContent : next.isContent = true) (regular : Regular (piece :: (gap ++ [next])))
    (unbroken : ∀ piece ∈ gap, piece.isNewline = false)
    (empty : ∀ piece ∈ gap, piece.isContent = false) :
    ∃ blanks, Seam (some piece) gap (some next) blanks.reverse
      ∧ (draft.through [next] gap).written = blanks ++ draft.written := by
  have single : ∀ piece ∈ [next], piece.isNewline = false := by
    simpa using Piece.not_isNewline_of_isContent nextContent
  have whole := (FirstLine.last single).append unbroken
  have each : ∀ other ∈ gap, other.Regular := fun other member =>
    regular.each other (by simp [member])
  have stop := fun removed : ∃ other ∈ gap, other.removed = true =>
    at_.stop content regular whole (removed.imp fun _ => And.imp_left (List.mem_append_left _))
  have nothing : Draft.Gains draft.written false draft :=
    ⟨[], rfl, by simp, by simp [Draft.breaks]⟩
  obtain ⟨blanks, stays, blank, broken⟩ :=
    Draft.gains_through nothing stop [next] each empty
  have unchanged (kept : ∀ other ∈ gap, other.removed = false) :
      blanks.reverse = Piece.textOf gap := by
    rw [Draft.through_of_kept kept at_.writing, List.append_cancel_right_eq] at stays
    rw [← stays, List.reverse_reverse]
  refine ⟨blanks, ⟨by simpa using blank, unchanged, ?_, ?_, ?_, ?_⟩, stays⟩
  · rw [isLineBreak_reverse]
    simpa using broken
  · intro other head newline _
    obtain ⟨others, rfl⟩ := List.head?_eq_some_iff.mp head
    simp [unbroken other List.mem_cons_self] at newline
  · rintro - ⟨other, member, newline⟩
    simp [unbroken other member] at newline
  · intro left isPiece right isNext solid
    obtain rfl := Option.some.inj isPiece
    obtain rfl := Option.some.inj isNext
    by_cases removed : ∃ other ∈ gap, other.removed = true
    · obtain ⟨before, ends⟩ := at_.ends
      have filled : draft.written.any (!Unicode.isWhiteSpace ·) = true := by
        rw [ends, List.any_append, List.any_reverse, solid, Bool.true_or]
      have last : draft.written.head? = piece.span.text.getLast? := by
        rw [ends, head?_reverse_append (regular.each piece List.mem_cons_self).nonempty]
      have tight := Draft.written_through_eq_iff filled (stop removed) nextContent each empty
      have same : (⟨draft.written, false⟩ : Draft) = draft := by
        obtain ⟨text, skipping⟩ := draft
        obtain rfl : skipping = false := at_.writing
        rfl
      rw [same, stays, last] at tight
      simpa using tight
    · have kept : ∀ other ∈ gap, other.removed = false := by simpa using removed
      rw [unchanged kept]
      cases gap with
      | nil => simp
      | cons other others =>
        have nonempty := (each other List.mem_cons_self).nonempty
        simp [nonempty, kept other List.mem_cons_self]

private theorem writtenAfter_snoc (earlier : List Piece) (content : piece.isContent = true)
    (nextContent : next.isContent = true) (regular : Regular (piece :: (gap ++ [next])))
    (empty : ∀ piece ∈ gap, piece.isContent = false) :
    ∃ blanks, Seam (some piece) gap (some next) blanks
      ∧ writtenAfter earlier piece (gap ++ [next]) = blanks ++ next.span.text := by
  obtain ⟨written, draft, at_⟩ := exists_draftAt earlier content
  have single : ∀ piece ∈ [next], piece.isNewline = false := by
    simpa using Piece.not_isNewline_of_isContent nextContent
  obtain ⟨line, rest, first⟩ := exists_firstLine gap
  cases first with
  | last unbroken =>
    have whole := (FirstLine.last single).append unbroken
    obtain ⟨blanks, seam, stays⟩ := at_.seam_in_line content nextContent regular unbroken empty
    have more : (draft.after (gap ++ [next])).written
        = (next.span.text.reverse ++ blanks) ++ draft.written := by
      rw [Draft.after_append nextContent, stays, List.append_assoc]
      rfl
    refine ⟨_, seam, ?_⟩
    rw [at_.writtenAfter_eq content regular whole more]
    simp [writeLines, lineGroups]
  | @ended body ending _ unbroken ends =>
    have first : FirstLine (body ++ ending :: (rest ++ [next])) (body ++ [ending])
        (rest ++ [next]) := .ended _ unbroken ends
    rw [List.append_assoc, List.cons_append] at regular ⊢
    have restRegular : ∀ other ∈ rest, other.Regular := fun other member =>
      regular.each other (by simp [member])
    rw [List.append_cons, List.forall_mem_append] at empty
    obtain ⟨blanks, stays, seam⟩ := at_.seam_line_end content regular first empty.1
    obtain ⟨others, later, restWritten⟩ := seam_start restRegular empty.2 nextContent
    have kept : ∃ piece ∈ body ++ [ending], piece.isNewline = true ∧ piece.removed = false :=
      ⟨ending, by simp, ends, (regular.each ending (by simp)).kept_of_newline ends⟩
    refine ⟨blanks.reverse ++ others, ?_, ?_⟩
    · rw [List.append_cons]
      exact seam.append_line kept later
    · rw [at_.writtenAfter_eq content regular first stays, restWritten, List.append_assoc]

/-- What is written after a kept piece is followed from one kept piece to the next. -/
theorem writtenAfter_append (earlier : List Piece) (content : piece.isContent = true)
    (nextContent : next.isContent = true) (regular : Regular (piece :: (gap ++ next :: later))) :
    writtenAfter earlier piece (gap ++ next :: later)
      = writtenAfter earlier piece (gap ++ [next])
        ++ writtenAfter (earlier ++ piece :: gap) next later := by
  have upTo : Regular (piece :: (gap ++ [next])) := by
    rw [List.append_cons, ← List.cons_append] at regular
    exact regular.left
  have after : Regular (next :: later) := by
    rw [← List.cons_append] at regular
    exact regular.right
  have here := writeLines_append earlier content regular
  have there := writeLines_append (earlier ++ piece :: gap) nextContent after
  have between := writeLines_append earlier content upTo
  rw [List.append_assoc, List.cons_append, List.append_assoc, List.cons_append, between, here,
    List.append_assoc, List.append_cancel_left_eq] at there
  exact there

/-- After a kept piece comes a seam, the next kept piece, and what is written after that. -/
theorem seam_between (earlier : List Piece) (content : piece.isContent = true)
    (nextContent : next.isContent = true) (regular : Regular (piece :: (gap ++ next :: later)))
    (empty : ∀ piece ∈ gap, piece.isContent = false) :
    ∃ blanks, Seam (some piece) gap (some next) blanks
      ∧ writtenAfter earlier piece (gap ++ next :: later)
        = blanks ++ (next.span.text ++ writtenAfter (earlier ++ piece :: gap) next later) := by
  have upTo : Regular (piece :: (gap ++ [next])) := by
    rw [List.append_cons, ← List.cons_append] at regular
    exact regular.left
  obtain ⟨blanks, seam, written⟩ := writtenAfter_snoc earlier content nextContent upTo empty
  refine ⟨blanks, seam, ?_⟩
  rw [writtenAfter_append earlier content nextContent regular, written, List.append_assoc]

/-- After the last kept piece comes a seam. -/
theorem seam_last (earlier : List Piece) (content : piece.isContent = true)
    (regular : Regular (piece :: gap)) (empty : ∀ piece ∈ gap, piece.isContent = false) :
    Seam (some piece) gap none (writtenAfter earlier piece gap) := by
  obtain ⟨written, draft, at_⟩ := exists_draftAt earlier content
  obtain ⟨line, rest, first⟩ := exists_firstLine gap
  have parts := first.eq_append
  have lineEmpty : ∀ other ∈ line, other.isContent = false := fun other member =>
    empty other (parts ▸ List.mem_append_left _ member)
  obtain ⟨blanks, stays, seam⟩ := at_.seam_line_end content regular first lineEmpty
  rw [at_.writtenAfter_eq content regular first stays]
  cases first with
  | last unbroken => simpa [writeLines, lineGroups] using seam
  | @ended body ending _ unbroken ends =>
    have restRegular : ∀ other ∈ rest, other.Regular := fun other member =>
      regular.each other (by simp [member])
    have restEmpty : ∀ other ∈ rest, other.isContent = false := fun other member =>
      empty other (by simp [member])
    have kept : ∃ piece ∈ body ++ [ending], piece.isNewline = true ∧ piece.removed = false :=
      ⟨ending, by simp, ends, (regular.each ending (by simp)).kept_of_newline ends⟩
    rw [List.append_cons]
    exact seam.append_line kept (seam_of_gap restRegular restEmpty)

/-- A text begins with a seam, the first kept piece, and what is written after that. -/
theorem seam_first (nextContent : next.isContent = true) (regular : Regular (gap ++ next :: later))
    (empty : ∀ piece ∈ gap, piece.isContent = false) :
    ∃ blanks, Seam none gap (some next) blanks
      ∧ writeLines (gap ++ next :: later)
        = blanks ++ (next.span.text ++ writtenAfter gap next later) := by
  have before : ∀ other ∈ gap, other.Regular := fun other member =>
    regular.each other (by simp [member])
  obtain ⟨blanks, seam, written⟩ := seam_start before empty nextContent
  refine ⟨blanks, seam, ?_⟩
  rw [writeLines_append gap nextContent regular.right, written, List.append_assoc]

end Writing

end CommentStrip
