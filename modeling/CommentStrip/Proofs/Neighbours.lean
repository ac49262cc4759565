import CommentStrip.Proofs.Spacing

/-!
# Kept neighbours

Whatever comments and string literals are removed between two kept texts, what is written between
them is determined by the rewritten text, and it keeps them apart as the source did. It ends a line
exactly if a line ended there, it is not empty if there was a blank, and if it is empty although
something was removed, the two texts do not fuse into one token. All this rests on something to be
seen on the line before: where only white space is kept, what is removed counts as the start of its
line.
-/
namespace CommentStrip

/-- The text consists of words with blanks around them. `left` and `right` are two words next to each
other, and exactly `between` stands between them. -/
def StandsBetween (text : Text) (earlier : List Text) (left between right : Text)
    (later : List Text) : Prop :=
  ∃ before after, text = before ++ (left ++ (between ++ (right ++ after))) ∧ Spaced earlier before
    ∧ (∀ c ∈ between, isBlankChar c = true) ∧ Spaced later after

/-- What stands between two kept pieces keeps them apart as the gap between them did. -/
structure Apart (left : Piece) (gap : List Piece) (right : Piece) (between : Text) : Prop where
  /-- A line ends there exactly if one ended in the gap. -/
  breaks : Draft.breaks between = true ↔ Draft.breaks (Piece.textOf gap) = true
  blank : (∃ piece ∈ gap, piece.span.kind.isBlank = true) → between ≠ []
  /-- Without anything left between them, two words, two operators, or a word and a literal after it
  do not meet. -/
  distinct : between = [] → (∃ piece ∈ gap, piece.removed = true) →
    ∀ last ∈ left.span.text.getLast?, ∀ first ∈ right.span.text.head?,
      ¬(isTokenWord last = true ∧ isTokenWord first = true)
        ∧ ¬(isOperatorChar last = true ∧ isOperatorChar first = true)
        ∧ ¬(right.span.kind = .stringLiteral ∧ isTokenWord last = true)

section Pieces

variable {pieces earlier front gap : List Piece} {groups : List (List Piece)} {piece next : Piece}

theorem breaks_textOf (gap : List Piece) :
    Draft.breaks (Piece.textOf gap) = gap.any (·.span.containsLineBreak) := by
  simp only [Draft.breaks, Piece.textOf, List.any_flatMap]
  rfl

/-- What stands between two words is determined by the text and the words. -/
theorem StandsBetween.unique {text left right first second : Text} {words others : List Text}
    (solid : ∀ known ∈ left :: words, known ≠ [] ∧ ∀ c ∈ known.head?, isBlankChar c = false)
    (starts : right ≠ [] ∧ ∀ c ∈ right.head?, isBlankChar c = false)
    (here : StandsBetween text words left first right others)
    (there : StandsBetween text words left second right others) : first = second := by
  obtain ⟨before, after, rfl, spaced, blank, -⟩ := here
  obtain ⟨alsoBefore, alsoAfter, same, alsoSpaced, alsoBlank, -⟩ := there
  obtain rfl := spaced.append_inj solid alsoSpaced same
  -- both go on after the same word, and the next one does not begin with a blank
  have onward := List.append_cancel_left (List.append_cancel_left same)
  refine (append_inj_of_stops blank alsoBlank ?_ ?_ onward).1
  · rw [List.head?_append_of_ne_nil _ starts.1]
    exact starts.2
  · rw [List.head?_append_of_ne_nil _ starts.1]
    exact starts.2

/-- A kept piece of a gap is blank, so it has nothing to be seen. -/
private theorem not_visible_of_gap (regular : ∀ piece ∈ gap, piece.Regular)
    (empty : ∀ piece ∈ gap, piece.isContent = false) :
    ¬∃ piece ∈ gap, piece.removed = false
      ∧ piece.span.text.any (!Unicode.isWhiteSpace ·) = true := by
  rintro ⟨piece, member, kept, visible⟩
  have one := regular piece member
  rcases one.gap_cases (empty piece member) with ⟨removed, -⟩ | ⟨-, blank⟩
  · simp [kept] at removed
  · obtain ⟨c, inside, other⟩ := List.any_eq_true.mp visible
    simp [isWhiteSpace_of_isBlankChar (one.isBlankChar_of_blank blank c inside)] at other

end Pieces

/-- The draft of a line with the pieces `front` before the kept piece and this piece itself. -/
def Draft.upTo (front : List Piece) (piece : Piece) : Draft :=
  ⟨piece.span.text.reverse ++ (Draft.empty.through [piece] front).written, false⟩

section InLine

variable {earlier front gap : List Piece} {groups : List (List Piece)} {piece next : Piece}
  {blanks : Text}

/-- What is written between two kept pieces of a line is what its draft gains between them. -/
private theorem writtenAfter_eq_of_draft
    (follows : ∀ later, lineGroups (earlier ++ later) = groups ++ lineGroups (front ++ later))
    (unbroken : ∀ other ∈ front ++ piece :: (gap ++ [next]), other.isNewline = false)
    (content : piece.isContent = true) (nextContent : next.isContent = true)
    (stays : ((Draft.upTo front piece).through [next] gap).written
      = blanks ++ (Draft.upTo front piece).written) :
    writtenAfter earlier piece (gap ++ [next]) = blanks.reverse ++ next.span.text := by
  have written {line : List Piece} (unbroken : ∀ other ∈ front ++ piece :: line,
      other.isNewline = false) : writeLines (earlier ++ piece :: line)
        = groups.flatMap writeGroup ++ ((Draft.upTo front piece).after line).written.reverse := by
    rw [writeLines, follows, lineGroups_of_unbroken unbroken (by simp), List.flatMap_append,
      List.flatMap_singleton, writeGroup_of_content (by simp [content]), Draft.after_append content]
    rfl
  have start := @written [] fun other member => unbroken other (by
    simp only [List.mem_append, List.mem_singleton] at member
    rcases member with before | rfl <;> simp [*])
  have whole := written unbroken
  -- the draft goes on from the first piece over the gap to the second
  rw [Draft.after_append nextContent, stays] at whole
  simp only [Draft.after, List.reverse_append, List.reverse_reverse, List.append_assoc] at start whole
  rw [writtenAfter, whole, start, ← List.append_assoc]
  exact List.drop_left

private theorem hasContent_upTo (frontEach : ∀ other ∈ front, other.Regular)
    (seen : ∃ other ∈ front ++ [piece], other.removed = false
      ∧ other.span.text.any (!Unicode.isWhiteSpace ·) = true) :
    (Draft.upTo front piece).hasContent = true := by
  rw [Draft.hasContent, Draft.upTo, List.any_append, List.any_reverse, Bool.or_eq_true]
  obtain ⟨other, member, kept, visible⟩ := seen
  rcases List.mem_append.mp member with before | here
  · exact .inr (Draft.hasContent_through [piece] frontEach (.inr ⟨other, before, kept, visible⟩))
  · obtain rfl := List.mem_singleton.mp here
    exact .inl visible

/-- What a draft with something to be seen gains in a gap keeps the pieces around the gap apart. -/
private theorem apart_of_draft (content : piece.isContent = true) (nextContent : next.isContent = true)
    (regular : Regular (piece :: (gap ++ [next])))
    (unbroken : ∀ other ∈ gap ++ [next], other.isNewline = false)
    (empty : ∀ other ∈ gap, other.isContent = false)
    (filled : (Draft.upTo front piece).hasContent = true) :
    ∃ blanks, ((Draft.upTo front piece).through [next] gap).written
        = blanks ++ (Draft.upTo front piece).written
      ∧ Apart piece gap next blanks.reverse := by
  have each : ∀ other ∈ gap, other.Regular := fun other member => regular.each other (by simp [member])
  have last : (Draft.upTo front piece).written.head? = piece.span.text.getLast? :=
    head?_reverse_append (regular.each piece List.mem_cons_self).nonempty
  have stop (removed : ∃ other ∈ gap, other.removed = true) :
      ∀ c ∈ (Draft.upTo front piece).written.head?, isInlineBlank c = false := by
    rw [last]
    exact not_isInlineBlank_of_removed content regular (.last unbroken)
      (removed.imp fun _ => And.imp_left (List.mem_append_left _))
  have tight (removed : ∃ other ∈ gap, other.removed = true) :=
    Draft.written_through_eq_iff filled (stop removed) nextContent each empty
  have none : ∃ blanks, (Draft.upTo front piece).written = blanks ++ (Draft.upTo front piece).written
      ∧ Draft.breaks blanks = false := ⟨[], rfl, rfl⟩
  obtain ⟨blanks, stays, ends⟩ := Draft.breaks_through filled stop none nextContent each empty
  refine ⟨blanks, stays, ?breaks, ?blank, ?distinct⟩
  case breaks =>
    rw [breaks_textOf, ← Bool.or_false (gap.any _), ← ends, Draft.breaks, List.any_reverse]
    rfl
  case blank =>
    rintro ⟨other, member, blank⟩ none
    rw [List.reverse_eq_nil_iff.mp none, List.nil_append] at stays
    by_cases removed : ∃ other ∈ gap, other.removed = true
    · -- then all of the gap would be removed, and blanks never are
      rcases (tight removed).mp stays with rfl | ⟨all, -⟩
      · simp at member
      · have solid := (each other member).removable (all other member).1
        simp [blank] at solid
    · -- the gap is written as it is
      have kept : ∀ other ∈ gap, other.removed = false := by simpa using removed
      rw [Draft.through_of_kept kept rfl] at stays
      have text : Piece.textOf gap = [] := by simpa using stays
      exact (each other member).nonempty (List.flatMap_eq_nil_iff.mp text other member)
  case distinct =>
    intro none removed c isLast d isFirst
    rw [List.reverse_eq_nil_iff.mp none, List.nil_append] at stays
    rcases (tight removed).mp stays with rfl | ⟨-, apart⟩
    · simp at removed
    · rw [last, Option.mem_def.mp isLast, Option.any_some, wouldFuse, Option.mem_def.mp isFirst,
        Option.any_some] at apart
      simpa [and_assoc] using apart

end InLine

section Neighbours

variable {pieces earlier gap later : List Piece} {left right : Piece}

/-- Kept pieces on different lines are kept apart by a line break at least. -/
private theorem apart_of_newline {between : Text}
    (newline : ∃ piece ∈ gap, piece.isNewline = true)
    (seam : Seam (some left) gap (some right) between) : Apart left gap right between := by
  have ends : Draft.breaks between = true := seam.grows rfl newline
  have written : between ≠ [] := by
    rintro rfl
    simp [Draft.breaks] at ends
  refine ⟨iff_of_true ends ?_, fun _ => written, fun none => absurd none written⟩
  rw [breaks_textOf]
  exact seam.broken ends

/-- What is written between kept neighbours keeps them apart, if there is something to be seen before
the second one on its line. -/
theorem exists_apart (regular : Regular (earlier ++ left :: (gap ++ right :: later)))
    (leftKept : left.isContent = true) (rightKept : right.isContent = true)
    (empty : ∀ piece ∈ gap, piece.isContent = false)
    (seen : ∀ line ∈ lineGroups (earlier ++ left :: (gap ++ right :: later)), ∀ front back,
      line = front ++ left :: (gap ++ right :: back) →
        ∃ piece ∈ front ++ left :: gap, piece.removed = false
          ∧ piece.span.text.any (!Unicode.isWhiteSpace ·) = true) :
    ∃ between, writtenAfter earlier left (gap ++ right :: later)
        = between ++ (right.span.text ++ writtenAfter (earlier ++ left :: gap) right later)
      ∧ (∀ c ∈ between, isBlankChar c = true) ∧ Apart left gap right between := by
  have onward : Regular (left :: (gap ++ right :: later)) := regular.right
  have each : ∀ piece ∈ gap, piece.Regular := fun piece member => onward.each piece (by simp [member])
  obtain ⟨between, seam, written⟩ := seam_between earlier leftKept rightKept onward empty
  refine ⟨between, written, seam.blank, ?_⟩
  by_cases newline : ∃ piece ∈ gap, piece.isNewline = true
  · exact apart_of_newline newline seam
  -- both are on one line, of which the pieces before `left` are `front`
  have gapUnbroken : ∀ piece ∈ gap, piece.isNewline = false := by simpa using newline
  obtain ⟨groups, front, rfl, frontUnbroken, follows⟩ := exists_lineGroups earlier
  have rightUnbroken := Piece.not_isNewline_of_isContent rightKept
  have unbroken : ∀ piece ∈ front ++ left :: (gap ++ [right]), piece.isNewline = false := by
    simp only [List.forall_mem_append, List.forall_mem_cons]
    exact ⟨frontUnbroken, Piece.not_isNewline_of_isContent leftKept, gapUnbroken, rightUnbroken,
      by simp⟩
  have visible : ∃ piece ∈ front ++ left :: gap, piece.removed = false
      ∧ piece.span.text.any (!Unicode.isWhiteSpace ·) = true := by
    obtain ⟨back, rest, first⟩ := exists_firstLine later
    have line : FirstLine (front ++ left :: (gap ++ right :: later))
        (front ++ left :: (gap ++ right :: back)) rest := by
      simpa using first.append unbroken
    exact seen _ (by rw [follows]; exact List.mem_append_right _ (line.mem_lineGroups (by simp))) front back rfl
  have upTo : Regular (left :: (gap ++ [right])) := by
    rw [List.append_cons, ← List.cons_append] at onward
    exact onward.left
  have filled : (Draft.upTo front left).hasContent = true := by
    refine hasContent_upTo (fun piece member => regular.each piece (by simp [member])) ?_
    obtain ⟨piece, member, kept, seen⟩ := visible
    rw [List.append_cons, List.mem_append] at member
    rcases member with before | inGap
    · exact ⟨piece, before, kept, seen⟩
    · exact absurd ⟨piece, inGap, kept, seen⟩ (not_visible_of_gap each empty)
  obtain ⟨blanks, stays, apart⟩ := apart_of_draft leftKept rightKept upTo
    (fun piece member => unbroken piece (by simp_all)) empty filled
  -- the blanks of the draft are those of the seam, as the same text follows them
  have drafted := writtenAfter_eq_of_draft follows unbroken leftKept rightKept stays
  rw [writtenAfter_append _ leftKept rightKept onward, drafted, List.append_assoc,
    List.append_cancel_right_eq] at written
  exact written ▸ apart

end Neighbours

section Rewriting

variable {language : Language} {source : Text} {spans : List Span} {removed : List Nat}
  {earlier gap later : List Piece} {left right : Piece}

/--
Whichever comments and string literals of a source are removed, exactly one text stands between two
kept neighbours in the rewritten text, and it keeps them apart as the gap between them did. If they
are on one line, something before the second one has to be seen there.
-/
theorem neighbours_stay_apart (known : language ∈ Language.registered)
    (scanned : language.spans source = .ok spans)
    (removable : ∀ index ∈ removed, ∃ span, spans[index]? = some span
      ∧ (span.kind.isComment = true ∨ span.kind = .stringLiteral))
    (split : markRemoved spans removed = earlier ++ left :: (gap ++ right :: later))
    (leftKept : left.isContent = true) (rightKept : right.isContent = true)
    (empty : ∀ piece ∈ gap, piece.isContent = false)
    (seen : ∀ line ∈ lineGroups (markRemoved spans removed), ∀ front back,
      line = front ++ left :: (gap ++ right :: back) →
        ∃ piece ∈ front ++ left :: gap, piece.removed = false
          ∧ piece.span.text.any (!Unicode.isWhiteSpace ·) = true) :
    ∃ between, Apart left gap right between
      ∧ ∀ other, StandsBetween (rewrite spans (removed.map Decision.remove)).text
          ((Piece.contents earlier).map Token.text) left.span.text other right.span.text
          ((Piece.contents later).map Token.text) ↔ other = between := by
  have regular : Regular (earlier ++ left :: (gap ++ right :: later)) :=
    split ▸ regular_markRemoved known scanned removable
  rw [split] at seen
  obtain ⟨between, written, blank, apart⟩ := exists_apart regular leftKept rightKept empty seen
  -- the rewritten text up to `left`, then what is written after it up to `right`, then the rest
  obtain ⟨before, after, text, spaced, rfl, -⟩ := (woven_writeLines regular).split leftKept
  rw [List.nil_append, written] at text
  have onward : Regular (right :: later) := by
    rw [← List.cons_append, ← List.append_assoc] at regular
    exact regular.right
  have here : StandsBetween (rewrite spans (removed.map Decision.remove)).text
      ((Piece.contents earlier).map Token.text) left.span.text between right.span.text
      ((Piece.contents later).map Token.text) := by
    rw [text_rewrite_remove, split]
    exact ⟨before, _, text, spaced, blank,
      (woven_writtenAfter (earlier ++ left :: gap) rightKept onward).spaced⟩
  have rightRegular := onward.each right List.mem_cons_self
  have rightSolid := rightRegular.first (Piece.not_isBlank_of_isContent rightKept)
  refine ⟨between, apart, fun other => ⟨fun there => ?_, fun same => same ▸ here⟩⟩
  exact there.unique (regular.solid_upTo leftKept) ⟨rightRegular.nonempty, rightSolid⟩ here

/-- A literal and the comments around it go, and one of these ends a line. -/
theorem apart_without_comments_and_literal :
    ∃ spans earlier left gap right later,
      Language.javaScript.spans "y=x /*a*/'s'/*b\n*/+/*c*/+z".toList = .ok spans
      ∧ (∀ index ∈ [2, 3, 4, 6], ∃ span, spans[index]? = some span
        ∧ (span.kind.isComment = true ∨ span.kind = .stringLiteral))
      ∧ markRemoved spans [2, 3, 4, 6] = earlier ++ left :: (gap ++ right :: later)
      ∧ (left.isContent = true ∧ right.isContent = true ∧ gap.all (!·.isContent) = true)
      ∧ (∃ between, Apart left gap right between
        ∧ ∀ other, StandsBetween (rewrite spans ([2, 3, 4, 6].map Decision.remove)).text
          ((Piece.contents earlier).map Token.text) left.span.text other right.span.text
          ((Piece.contents later).map Token.text) ↔ other = between)
      ∧ (rewrite spans ([2, 3, 4, 6].map Decision.remove)).text = "y=x\n+ +z".toList := by
  have scanned : Language.javaScript.spans "y=x /*a*/'s'/*b\n*/+/*c*/+z".toList
      = .ok [⟨.code, 0, 3, 1, 1, "y=x".toList⟩, ⟨.whitespace, 3, 4, 1, 4, " ".toList⟩,
        ⟨.blockComment, 4, 9, 1, 5, "/*a*/".toList⟩, ⟨.stringLiteral, 9, 12, 1, 10, "'s'".toList⟩,
        ⟨.blockComment, 12, 18, 1, 13, "/*b\n*/".toList⟩, ⟨.code, 18, 19, 2, 3, "+".toList⟩,
        ⟨.blockComment, 19, 24, 2, 4, "/*c*/".toList⟩, ⟨.code, 24, 26, 2, 9, "+z".toList⟩] := by
    rw [Language.spans_eq_lexWithin]
    decide +kernel
  have known : Language.javaScript ∈ Language.registered := by simp [Language.registered]
  refine ⟨_, [], ⟨⟨.code, 0, 3, 1, 1, "y=x".toList⟩, false⟩,
    [⟨⟨.whitespace, 3, 4, 1, 4, " ".toList⟩, false⟩,
      ⟨⟨.blockComment, 4, 9, 1, 5, "/*a*/".toList⟩, true⟩,
      ⟨⟨.stringLiteral, 9, 12, 1, 10, "'s'".toList⟩, true⟩,
      ⟨⟨.blockComment, 12, 18, 1, 13, "/*b\n*/".toList⟩, true⟩],
    ⟨⟨.code, 18, 19, 2, 3, "+".toList⟩, false⟩,
    [⟨⟨.blockComment, 19, 24, 2, 4, "/*c*/".toList⟩, true⟩,
      ⟨⟨.code, 24, 26, 2, 9, "+z".toList⟩, false⟩],
    scanned, ?removable, ?split, by decide, ?_, by decide +kernel⟩
  · simp [Kind.isComment]
  · rfl
  · refine neighbours_stay_apart known scanned ?removable ?split (by decide) (by decide)
      (by decide) ?_
    rintro - - front back -
    exact ⟨_, List.mem_append_right front List.mem_cons_self, by decide, by decide⟩

end Rewriting

end CommentStrip
