import CommentStrip.Proofs.Spacing

/-!
# Indentation

A line that keeps something is written with the blanks that it begins with, and right after them with
the first text that it keeps: what is removed before this text leaves nothing behind. A line that
loses all it has is not written. As each line is written where a line begins, it keeps its indentation.
-/
namespace CommentStrip

/-- No two blanks inside a line are neighbours. -/
def BlanksApart (pieces : List Piece) : Prop :=
  pieces.IsChain fun piece other => ¬(piece.isWhitespace = true ∧ other.isWhitespace = true)

theorem BlanksApart.left {first second : List Piece} (apart : BlanksApart (first ++ second)) :
    BlanksApart first :=
  apart.left_of_append

theorem BlanksApart.right {first second : List Piece} (apart : BlanksApart (first ++ second)) :
    BlanksApart second :=
  apart.right_of_append

/-- What holds of a line of a scanned text. -/
structure ProperLine (line : List Piece) : Prop where
  regular : Regular line
  apart : BlanksApart line
  unbroken : ∀ piece ∈ line.dropLast, piece.isNewline = false

/-- The blanks that pieces begin with. -/
def Piece.leadingBlanks : List Piece → Text
  | [] => []
  | first :: _ => if first.isWhitespace then first.span.text else []

/-- `written` stands for the line in the rewritten text, right after the text `earlier`. -/
structure Indented (earlier : Text) (line : List Piece) (written : Text) : Prop where
  starts : ∀ c ∈ earlier.getLast?, isLineBreak c = true
  /-- The first piece that is kept comes right after the blanks that the line begins with. -/
  first : ∀ gap piece rest, line = gap ++ piece :: rest → (∀ other ∈ gap, other.isContent = false) →
    piece.isContent = true → ∃ more, written = Piece.leadingBlanks line ++ (piece.span.text ++ more)
  indentation : line.any Piece.isContent = true →
    written.takeWhile isInlineBlank = (Piece.textOf line).takeWhile isInlineBlank
  gone : line.any (·.removed) = true → line.any Piece.isContent = false → written = []

namespace Piece

variable {gap rest : List Piece} {piece : Piece}

theorem leadingBlanks_append (rest : List Piece) :
    leadingBlanks (gap ++ piece :: rest) = leadingBlanks (gap ++ [piece]) := by
  cases gap with
  | nil => rfl
  | cons first others => rfl

theorem leadingBlanks_of_solid (solid : piece.isWhitespace = false) (rest : List Piece) :
    leadingBlanks (piece :: rest) = [] := by
  simp [leadingBlanks, solid]

theorem isInlineBlank_leadingBlanks {pieces : List Piece} (regular : ∀ piece ∈ pieces, piece.Regular) :
    ∀ c ∈ leadingBlanks pieces, isInlineBlank c = true := by
  cases pieces with
  | nil => simp [leadingBlanks]
  | cons first others =>
    rw [leadingBlanks]
    split
    next whitespace =>
      exact (regular first List.mem_cons_self).whitespace (by simpa [isWhitespace] using whitespace)
    · simp

/-- A gap piece that is on the line is a blank inside it or removed. -/
theorem Regular.isWhitespace_or_removed (regular : piece.Regular) (empty : piece.isContent = false)
    (same : piece.isNewline = false) :
    piece.isWhitespace = true ∧ piece.removed = false
      ∨ piece.isWhitespace = false ∧ piece.removed = true := by
  rcases regular.gap_cases empty with ⟨removed, solid, -⟩ | ⟨kept, blank⟩
  · exact .inr ⟨solid, removed⟩
  · rw [Kind.isBlank, Bool.or_eq_true] at blank
    exact .inl ⟨blank.resolve_right (by simpa [isNewline] using same), kept⟩

/-- What is no blank inside a line does not begin with one. -/
theorem Regular.solid_head (regular : piece.Regular) (solid : piece.isWhitespace = false) :
    ∀ c ∈ piece.span.text.head?, isInlineBlank c = false := by
  intro c head
  cases blank : piece.span.kind.isBlank with
  | false =>
    have other := regular.first blank c head
    rw [isBlankChar, Bool.or_eq_false_iff] at other
    exact other.1
  | true =>
    rw [Kind.isBlank, Bool.or_eq_true] at blank
    have newline := blank.resolve_left (by simpa [isWhitespace] using solid)
    have ends := regular.newline (by simpa using newline) c (List.mem_of_head? head)
    exact not_isInlineBlank_of_isLineBreak ends

/-- As no two blanks are neighbours, the first piece alone holds the blanks that a line begins with. -/
theorem takeWhile_textOf {pieces : List Piece} (regular : ∀ piece ∈ pieces, piece.Regular)
    (apart : BlanksApart pieces) :
    (textOf pieces).takeWhile isInlineBlank = leadingBlanks pieces := by
  have stops {piece : Piece} (one : piece.Regular) (solid : piece.isWhitespace = false)
      (others : List Piece) : ∀ c ∈ (textOf (piece :: others)).head?, isInlineBlank c = false := by
    rw [textOf_cons, List.head?_append_of_ne_nil _ one.nonempty]
    exact one.solid_head solid
  cases pieces with
  | nil => simp [leadingBlanks]
  | cons first others =>
    rw [List.forall_mem_cons] at regular
    cases blank : first.isWhitespace with
    | false =>
      rw [leadingBlanks_of_solid blank, ← List.nil_append (textOf (first :: others))]
      exact takeWhile_append_of_stops (by simp) (stops regular.1 blank others)
    | true =>
      have all := regular.1.whitespace (by simpa [isWhitespace] using blank)
      simp only [leadingBlanks, blank, if_true, textOf_cons]
      refine takeWhile_append_of_stops all ?_
      cases others with
      | nil => simp
      | cons second more =>
        refine stops (regular.2 second List.mem_cons_self) ?_ more
        simpa [blank] using (List.isChain_cons_cons.mp apart).1

end Piece

namespace Draft

variable {draft : Draft} {gap rest : List Piece} {next piece : Piece}

/-- As long as nothing is to be seen on the line, what is removed only makes blanks left out. -/
theorem afterRemoved_of_bare (bare : draft.hasContent = false) (content : rest.any Piece.isContent = true)
    (span : Span) : draft.afterRemoved span rest = ⟨draft.written, true⟩ := by
  simp [afterRemoved, bare, content]

theorem hasContent_of_blanks {blanks : Text} (blank : ∀ c ∈ blanks, isInlineBlank c = true)
    (skipping : Bool) : Draft.hasContent ⟨blanks.reverse, skipping⟩ = false := by
  rw [hasContent, List.any_reverse, List.any_eq_false]
  intro c member
  have space : isBlankChar c = true := by simp [isBlankChar, blank c member]
  simp [isWhiteSpace_of_isBlankChar space]

section Start

variable (content : next.isContent = true) (regular : ∀ piece ∈ gap, piece.Regular)
  (unbroken : ∀ piece ∈ gap, piece.isNewline = false) (empty : ∀ piece ∈ gap, piece.isContent = false)

include content regular unbroken empty

/-- Once something has been removed at the start of a line, nothing is written before the first piece
that is kept. -/
theorem through_of_bare (bare : draft.hasContent = false) (skipping : draft.skipping = true) :
    draft.through [next] gap = draft := by
  induction gap with
  | nil => simp [through]
  | cons piece others ih =>
    simp only [List.forall_mem_cons] at regular unbroken empty
    have onward := ih regular.2 unbroken.2 empty.2
    rcases regular.1.isWhitespace_or_removed empty.1 unbroken.1 with ⟨blank, -⟩ | ⟨solid, removed⟩
    · simpa [through, skipping, blank] using onward
    · have same : draft.afterRemoved piece.span (others ++ [next]) = draft := by
        rw [afterRemoved_of_bare bare (by simp [content]), ← skipping]
      simpa [through, solid, removed, same] using onward

/-- Before the first piece that is kept, a line is written as the blanks that it begins with. -/
theorem written_through_start (apart : BlanksApart gap) :
    (Draft.empty.through [next] gap).written = (Piece.leadingBlanks (gap ++ [next])).reverse := by
  cases gap with
  | nil =>
    rw [List.nil_append, Piece.leadingBlanks_of_solid (Piece.not_isWhitespace_of_isContent content)]
    simp [through, Draft.empty]
  | cons first others =>
    simp only [List.forall_mem_cons] at regular unbroken empty
    rcases regular.1.isWhitespace_or_removed empty.1 unbroken.1 with ⟨blank, kept⟩ | ⟨solid, removed⟩
    · have all : ∀ c ∈ first.span.text, isInlineBlank c = true :=
        regular.1.whitespace (by simpa [Piece.isWhitespace] using blank)
      simp only [through, Draft.empty, kept, Piece.leadingBlanks, List.cons_append, blank,
        Bool.false_and, Bool.false_eq_true, if_false, if_true, List.append_nil]
      cases others with
      | nil => simp [through]
      | cons second more =>
        -- no two blanks are next to each other, so the second piece is removed
        simp only [List.forall_mem_cons] at regular unbroken empty
        obtain ⟨solid, removed⟩ :=
          (regular.2.1.isWhitespace_or_removed empty.2.1 unbroken.2.1).resolve_left
            fun also => (List.isChain_cons_cons.mp apart).1 ⟨blank, also.1⟩
        simp only [through, Bool.false_and, Bool.false_eq_true, if_false, removed, if_true]
        rw [afterRemoved_of_bare (hasContent_of_blanks all false) (by simp [content]),
          through_of_bare content regular.2.2 unbroken.2.2 empty.2.2 (hasContent_of_blanks all true) rfl]
    · have bare : Draft.empty.afterRemoved first.span (others ++ [next]) = ⟨[], true⟩ :=
        afterRemoved_of_bare rfl (by simp [content]) _
      simp only [through, solid, Bool.and_false, Bool.false_eq_true, if_false, removed, if_true, bare]
      rw [through_of_bare content regular.2 unbroken.2 empty.2 rfl rfl, List.cons_append,
        Piece.leadingBlanks_of_solid solid, List.reverse_nil]

end Start

end Draft

section Lines

variable {pieces line gap rest body : List Piece} {before after : List (List Piece)}
  {first ending : Piece}

/-- A line whose last piece alone may be a line break is complete. -/
theorem firstLine_self (unbroken : ∀ piece ∈ line.dropLast, piece.isNewline = false) :
    FirstLine line line [] := by
  rcases List.eq_nil_or_concat line with rfl | ⟨body, last, rfl⟩
  · exact .last (by simp)
  rw [List.concat_eq_append, List.dropLast_concat] at *
  cases newline : last.isNewline with
  | true => exact .ended [] unbroken newline
  | false =>
    refine .last ?_
    rw [List.forall_mem_append]
    exact ⟨unbroken, by simpa using newline⟩

theorem properLine_of_mem (regular : Regular pieces) (apart : BlanksApart pieces)
    (member : line ∈ lineGroups pieces) : ProperLine line := by
  obtain ⟨earlier, later, rfl, unbroken⟩ := exists_split_of_mem_lineGroups member
  exact ⟨regular.right.left, apart.right.left, unbroken⟩

/-- A line begins with its own blanks and goes on with the first piece that is kept on it. -/
theorem writeGroup_first (proper : ProperLine (gap ++ first :: rest))
    (empty : ∀ piece ∈ gap, piece.isContent = false) (content : first.isContent = true) :
    ∃ more, writeGroup (gap ++ first :: rest)
      = Piece.leadingBlanks (gap ++ first :: rest) ++ (first.span.text ++ more) := by
  obtain ⟨regular, apart, unbroken⟩ := proper
  rw [List.dropLast_append_of_ne_nil (List.cons_ne_nil _ _), List.forall_mem_append] at unbroken
  have each : ∀ piece ∈ gap, piece.Regular := fun piece member => regular.each piece (by simp [member])
  have start := Draft.written_through_start content each unbroken.1 empty apart.left
  have ends : FirstLine rest rest [] := firstLine_self fun piece member => unbroken.2 piece (by
    rw [List.dropLast_cons_of_ne_nil (List.ne_nil_of_mem (List.dropLast_subset _ member))]
    exact List.mem_cons_of_mem _ member)
  -- nothing that comes later takes anything of the first kept piece back
  have stop (removed : ∃ piece ∈ rest, piece.removed = true) :
      ∀ c ∈ (first.span.text.reverse ++ (Piece.leadingBlanks (gap ++ [first])).reverse).head?,
        isInlineBlank c = false := by
    rw [head?_reverse_append (regular.each first (by simp)).nonempty]
    exact not_isInlineBlank_of_removed content regular.right ends removed
  obtain ⟨more, written⟩ : ∃ more, (Draft.after
      ⟨first.span.text.reverse ++ (Piece.leadingBlanks (gap ++ [first])).reverse, false⟩ rest).written
        = more ++ (first.span.text.reverse ++ (Piece.leadingBlanks (gap ++ [first])).reverse) :=
    Draft.exists_append_after stop ⟨[], rfl⟩
  refine ⟨more.reverse, ?_⟩
  rw [writeGroup_of_content (by simp [content]), Draft.after_append content, start, written,
    Piece.leadingBlanks_append rest]
  simp

/-- A line that keeps something begins with no other blanks than before. -/
theorem takeWhile_writeGroup (proper : ProperLine line) (content : line.any Piece.isContent = true) :
    (writeGroup line).takeWhile isInlineBlank = (Piece.textOf line).takeWhile isInlineBlank := by
  rcases exists_gap line with empty | ⟨gap, piece, rest, rfl, empty, found⟩
  · obtain ⟨piece, member, found⟩ := List.any_eq_true.mp content
    simp [empty piece member] at found
  have each := proper.regular.each
  have one := each piece (by simp)
  obtain ⟨more, written⟩ := writeGroup_first proper empty found
  rw [Piece.takeWhile_textOf each proper.apart, written]
  refine takeWhile_append_of_stops (Piece.isInlineBlank_leadingBlanks each) ?_
  rw [List.head?_append_of_ne_nil _ one.nonempty]
  exact one.solid_head (Piece.not_isWhitespace_of_isContent found)

/-- All lines before another one end with a line break. -/
theorem newline_of_lineGroups (cut : lineGroups pieces = before ++ line :: after) :
    ∀ other ∈ before, ∃ body ending, other = body ++ [ending] ∧ ending.isNewline = true := by
  induction before generalizing pieces with
  | nil => simp
  | cons other others ih =>
    obtain ⟨head, rest, cuts⟩ := exists_firstLine pieces
    cases cuts with
    | @ended body ending _ unbroken ends =>
      rw [lineGroups_append unbroken ends] at cut
      obtain ⟨rfl, onward⟩ := List.cons.inj cut
      exact List.forall_mem_cons.mpr ⟨⟨body, ending, rfl, ends⟩, ih onward⟩
    | last unbroken =>
      -- this would be the only line
      by_cases none : pieces = []
      · simp [none, lineGroups] at cut
      · simp [lineGroups_of_unbroken unbroken none] at cut

/-- A line that ends with a line break is written with it, if at all. -/
theorem getLast?_writeGroup (regular : ending.Regular) (newline : ending.isNewline = true) :
    ∀ c ∈ (writeGroup (body ++ [ending])).getLast?, isLineBreak c = true := by
  have stays (text : Text) : ∀ c ∈ (text ++ ending.span.text).getLast?, isLineBreak c = true := by
    intro c last
    rw [List.getLast?_append_of_ne_nil _ regular.nonempty] at last
    exact regular.newline (by simpa [Piece.isNewline] using newline) c (List.mem_of_getLast? last)
  have solid := Piece.not_isWhitespace_of_isNewline newline
  unfold writeGroup
  split
  · rw [List.flatMap_append, List.flatMap_singleton]
    exact stays _
  split
  · simp only [Draft.after_eq_through, Draft.through_append, Draft.through, solid, Bool.and_false,
      Bool.false_eq_true, if_false, regular.kept_of_newline newline, List.reverse_append,
      List.reverse_reverse]
    exact stays _
  · simp

/-- What is written before a line ends with a line break. -/
theorem getLast?_lines_before (regular : ∀ piece ∈ pieces, piece.Regular)
    (cut : lineGroups pieces = before ++ line :: after) :
    ∀ c ∈ (before.flatMap writeGroup).getLast?, isLineBreak c = true := by
  have ends := newline_of_lineGroups cut
  have inside : ∀ other ∈ before, ∀ piece ∈ other, piece.Regular := by
    intro other member piece within
    refine regular piece ?_
    rw [← flatten_lineGroups pieces, cut]
    exact List.mem_flatten.mpr ⟨other, List.mem_append_left _ member, within⟩
  clear cut
  induction before with
  | nil => simp
  | cons other others ih =>
    rw [List.forall_mem_cons] at ends inside
    obtain ⟨⟨body, ending, rfl, newline⟩, onward⟩ := ends
    rw [List.flatMap_cons, List.getLast?_append]
    cases last : (others.flatMap writeGroup).getLast? with
    | none => simpa using getLast?_writeGroup (inside.1 ending (by simp)) newline
    | some c => simpa [last] using ih onward inside.2

end Lines

section Source

variable {language : Language} {source : Text} {spans : List Span} {removed : List Nat}
  {pieces line : List Piece} {before after : List (List Piece)}

/-- Blanks inside a line are scanned as far as they go, so no two of them are neighbours. -/
theorem Language.Edit.blanks_apart (edit : language.Edit source pieces) : BlanksApart pieces := by
  rw [BlanksApart, List.isChain_iff_forall_rel_of_append_cons_cons]
  rintro piece other earlier later split ⟨blank, also⟩
  rw [Piece.isWhitespace, beq_iff_eq] at blank also
  have here := edit.readsAt split (by simp [blank])
  rw [Span.token, blank] at here
  have next := edit.regular.each other (by simp [split])
  obtain ⟨c, rest, whole⟩ := List.exists_cons_of_ne_nil next.nonempty
  have stops := here.whitespace_shape.2.2 c (by simp [whole])
  have inline := next.whitespace also c (by simp [whole])
  simp [stops] at inline

theorem blanks_apart_markRemoved (known : language ∈ Language.registered)
    (scanned : language.spans source = .ok spans) (removed : List Nat) :
    BlanksApart (markRemoved spans removed) := by
  -- which spans are marked plays no part
  have chain : ((markRemoved spans []).map Piece.span).IsChain fun span other =>
      ¬((span.kind == .whitespace) = true ∧ (other.kind == .whitespace) = true) :=
    (List.isChain_map _).mpr (unmarked_edit known scanned).blanks_apart
  rw [map_span_markRemoved, ← map_span_markRemoved spans removed] at chain
  exact (List.isChain_map _).mp chain

/--
Whichever comments and string literals of a source are removed, each line that keeps something is
written with the blanks that it begins with and then with the first text that it keeps, and begins
where a line begins, so that its indentation stays. A line that loses all its text is not written.
-/
theorem lines_keep_indentation (known : language ∈ Language.registered)
    (scanned : language.spans source = .ok spans)
    (removable : ∀ index ∈ removed, ∃ span, spans[index]? = some span
      ∧ (span.kind.isComment = true ∨ span.kind = .stringLiteral))
    (cut : lineGroups (markRemoved spans removed) = before ++ line :: after) :
    (rewrite spans (removed.map Decision.remove)).text
        = before.flatMap writeGroup ++ (writeGroup line ++ after.flatMap writeGroup)
      ∧ Indented (before.flatMap writeGroup) line (writeGroup line) := by
  have regular := regular_markRemoved known scanned removable
  have proper : ProperLine line := properLine_of_mem regular
    (blanks_apart_markRemoved known scanned removed) (by simp [cut])
  refine ⟨?_, getLast?_lines_before regular.each cut, ?first, takeWhile_writeGroup proper, ?gone⟩
  · rw [text_rewrite_remove, writeLines, cut, List.flatMap_append, List.flatMap_cons]
  case first =>
    rintro gap piece rest rfl empty content
    exact writeGroup_first proper empty content
  case gone =>
    intro removal none
    rw [writeGroup_of_gap (by simpa using none), if_neg]
    simpa using removal

/-- A comment with a line end and a literal go from the start of a line. -/
theorem line_keeps_indentation_without_comment :
    ∃ spans before line, Language.javaScript.spans "(\n\t/*a\n*/ 'b' x".toList = .ok spans
      ∧ (∀ index ∈ [3, 5], ∃ span, spans[index]? = some span
        ∧ (span.kind.isComment = true ∨ span.kind = .stringLiteral))
      ∧ lineGroups (markRemoved spans [3, 5]) = [before, line]
      ∧ (rewrite spans ([3, 5].map Decision.remove)).text = writeGroup before ++ writeGroup line
      ∧ Indented (writeGroup before) line (writeGroup line)
      ∧ writeGroup before = "(\n".toList ∧ writeGroup line = "\tx".toList := by
  have scanned : Language.javaScript.spans "(\n\t/*a\n*/ 'b' x".toList
      = .ok [⟨.code, 0, 1, 1, 1, "(".toList⟩, ⟨.newline, 1, 2, 1, 2, "\n".toList⟩,
        ⟨.whitespace, 2, 3, 2, 1, "\t".toList⟩, ⟨.blockComment, 3, 9, 2, 2, "/*a\n*/".toList⟩,
        ⟨.whitespace, 9, 10, 3, 3, " ".toList⟩, ⟨.stringLiteral, 10, 13, 3, 4, "'b'".toList⟩,
        ⟨.whitespace, 13, 14, 3, 7, " ".toList⟩, ⟨.code, 14, 15, 3, 8, "x".toList⟩] := by
    rw [Language.spans_eq_lexWithin]
    decide +kernel
  have known : Language.javaScript ∈ Language.registered := by simp [Language.registered]
  refine ⟨_, [⟨⟨.code, 0, 1, 1, 1, "(".toList⟩, false⟩, ⟨⟨.newline, 1, 2, 1, 2, "\n".toList⟩, false⟩],
    [⟨⟨.whitespace, 2, 3, 2, 1, "\t".toList⟩, false⟩,
      ⟨⟨.blockComment, 3, 9, 2, 2, "/*a\n*/".toList⟩, true⟩,
      ⟨⟨.whitespace, 9, 10, 3, 3, " ".toList⟩, false⟩,
      ⟨⟨.stringLiteral, 10, 13, 3, 4, "'b'".toList⟩, true⟩,
      ⟨⟨.whitespace, 13, 14, 3, 7, " ".toList⟩, false⟩, ⟨⟨.code, 14, 15, 3, 8, "x".toList⟩, false⟩],
    scanned, ?removable, ?cut, ?_⟩
  · simp [Kind.isComment]
  · rfl
  · have cut : lineGroups (markRemoved _ [3, 5]) = [_] ++ _ :: [] := ?cut
    obtain ⟨written, indented⟩ := lines_keep_indentation known scanned ?removable cut
    exact ⟨by simpa using written, by simpa using indented, by decide +kernel, by decide +kernel⟩

end Source

end CommentStrip
