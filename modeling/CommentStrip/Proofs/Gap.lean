import CommentStrip.Proofs.Conventions
import CommentStrip.Rewriting

/-!
# Gaps between kept pieces

Rewriting turns each gap between two kept pieces, with the removed pieces and blanks in it, into
blanks. They are the gap's own if nothing in it is removed, they end a line only if the gap does,
and there are none at all only where the pieces on both sides may stand next to each other. What is
written before a kept piece does not depend on what follows it, so a text can be followed from one
kept piece to the next.
-/
namespace CommentStrip

namespace Piece

/-- What holds of the pieces of a scanned text. -/
structure Regular (piece : Piece) : Prop where
  nonempty : piece.span.text ≠ []
  removable : piece.removed = true → piece.span.kind.isBlank = false
  whitespace : piece.span.kind = .whitespace → ∀ c ∈ piece.span.text, isInlineBlank c = true
  newline : piece.span.kind = .newline → ∀ c ∈ piece.span.text, isLineBreak c = true
  first : piece.span.kind.isBlank = false → ∀ c ∈ piece.span.text.head?, isBlankChar c = false
  last : piece.span.kind.isBlank = false → piece.span.kind ≠ .lineComment →
    ∀ c ∈ piece.span.text.getLast?, isBlankChar c = false

def isNewline (piece : Piece) : Bool :=
  piece.span.kind == .newline

/-- The text of pieces, whether they are removed or not. -/
def textOf (pieces : List Piece) : Text :=
  pieces.flatMap (·.span.text)

@[simp] theorem textOf_nil : textOf [] = [] := rfl

@[simp] theorem textOf_cons (piece : Piece) (pieces : List Piece) :
    textOf (piece :: pieces) = piece.span.text ++ textOf pieces := rfl

@[simp] theorem textOf_append (first second : List Piece) :
    textOf (first ++ second) = textOf first ++ textOf second := by
  simp [textOf]

theorem Regular.isBlankChar_of_blank {piece : Piece} (regular : piece.Regular)
    (blank : piece.span.kind.isBlank = true) : ∀ c ∈ piece.span.text, isBlankChar c = true := by
  intro c member
  simp only [Kind.isBlank, Bool.or_eq_true, beq_iff_eq] at blank
  rcases blank with whitespace | newline
  · simp [isBlankChar, regular.whitespace whitespace c member]
  · simp [isBlankChar, regular.newline newline c member]

/-- Nothing of a blank is to be seen. -/
theorem Regular.hidden_of_isBlank {piece : Piece} (regular : piece.Regular)
    (blank : piece.span.kind.isBlank = true) :
    piece.span.text.any (!Unicode.isWhiteSpace ·) = false := by
  rw [List.any_eq_false]
  intro c member
  simp [isWhiteSpace_of_isBlankChar (regular.isBlankChar_of_blank blank c member)]

theorem isBlank_of_isWhitespace {piece : Piece} (whitespace : piece.isWhitespace = true) :
    piece.span.kind.isBlank = true := by
  rw [Kind.isBlank, Bool.or_eq_true]
  exact .inl whitespace

theorem isBlank_of_isNewline {piece : Piece} (newline : piece.isNewline = true) :
    piece.span.kind.isBlank = true := by
  rw [Kind.isBlank, Bool.or_eq_true]
  exact .inr newline

/-- A piece that is not content is removed or blank, and never both. -/
theorem Regular.gap_cases {piece : Piece} (regular : piece.Regular)
    (gap : piece.isContent = false) :
    piece.removed = true ∧ piece.isWhitespace = false ∧ piece.span.kind.isBlank = false
      ∨ piece.removed = false ∧ piece.span.kind.isBlank = true := by
  cases removed : piece.removed with
  | false =>
    right
    simpa [isContent, removed] using gap
  | true =>
    have solid := regular.removable removed
    simp only [Kind.isBlank, Bool.or_eq_false_iff] at solid
    exact .inl ⟨rfl, solid.1, by simp [Kind.isBlank, solid]⟩

/-- No blank is removed. -/
theorem Regular.kept_of_isBlank {piece : Piece} (regular : piece.Regular)
    (blank : piece.span.kind.isBlank = true) : piece.removed = false := by
  by_contra removed
  rw [Bool.not_eq_false] at removed
  simp [regular.removable removed] at blank

theorem Regular.kept_of_newline {piece : Piece} (regular : piece.Regular)
    (newline : piece.isNewline = true) : piece.removed = false :=
  regular.kept_of_isBlank (isBlank_of_isNewline newline)

theorem not_removed_of_isContent {piece : Piece} (content : piece.isContent = true) :
    piece.removed = false := by
  simp only [isContent, Bool.and_eq_true, Bool.not_eq_true'] at content
  exact content.1

theorem not_isBlank_of_isContent {piece : Piece} (content : piece.isContent = true) :
    piece.span.kind.isBlank = false := by
  simp only [isContent, Bool.and_eq_true, Bool.not_eq_true'] at content
  exact content.2

theorem not_isWhitespace_of_isContent {piece : Piece} (content : piece.isContent = true) :
    piece.isWhitespace = false := by
  have solid := not_isBlank_of_isContent content
  simp only [Kind.isBlank, Bool.or_eq_false_iff] at solid
  exact solid.1

theorem not_isNewline_of_isContent {piece : Piece} (content : piece.isContent = true) :
    piece.isNewline = false := by
  have solid := not_isBlank_of_isContent content
  simp only [Kind.isBlank, Bool.or_eq_false_iff] at solid
  exact solid.2

theorem not_isNewline_of_isWhitespace {piece : Piece} (blank : piece.isWhitespace = true) :
    piece.isNewline = false := by
  rw [isWhitespace, beq_iff_eq] at blank
  simp [isNewline, blank]

theorem not_isWhitespace_of_isNewline {piece : Piece} (newline : piece.isNewline = true) :
    piece.isWhitespace = false := by
  rw [isNewline, beq_iff_eq] at newline
  simp [isWhitespace, newline]

end Piece

namespace Draft

variable {draft : Draft} {next piece : Piece} {gap ahead rest : List Piece} {base blanks : Text}

/-- The draft after some pieces of a line, with the pieces `ahead` still to come. -/
def through (draft : Draft) (ahead : List Piece) : List Piece → Draft
  | [] => draft
  | piece :: rest =>
    if draft.skipping && piece.isWhitespace then through draft ahead rest
    else if piece.removed then through (draft.afterRemoved piece.span (rest ++ ahead)) ahead rest
    else through ⟨piece.span.text.reverse ++ draft.written, false⟩ ahead rest

theorem after_eq_through : draft.after gap = draft.through [] gap := by
  induction gap generalizing draft with
  | nil => rfl
  | cons piece rest ih => simp only [after, through, ih, List.append_nil]

private theorem afterRemoved_append (content : next.isContent = true) (span : Span) :
    draft.afterRemoved span (gap ++ next :: rest) = draft.afterRemoved span (gap ++ [next]) := by
  have found : (gap ++ next :: rest).any Piece.isContent = (gap ++ [next]).any Piece.isContent := by
    simp [content]
  have head : (gap ++ next :: rest).head? = (gap ++ [next]).head? := by
    cases gap <;> rfl
  simp only [afterRemoved, found, head]

/-- What comes before kept content on its line is written without regard to what comes after. -/
theorem after_append (content : next.isContent = true) :
    draft.after (gap ++ next :: rest)
      = Draft.after ⟨next.span.text.reverse ++ (draft.through [next] gap).written, false⟩ rest := by
  induction gap generalizing draft with
  | nil =>
    simp [after, through, Piece.not_removed_of_isContent content,
      Piece.not_isWhitespace_of_isContent content]
  | cons piece others ih =>
    simp only [List.cons_append, after, through, afterRemoved_append content, ih]
    split
    · rfl
    · split <;> rfl

private theorem afterRemoved_of_content (content : rest.any Piece.isContent = true) (span : Span) :
    draft.afterRemoved span rest
      = if !draft.hasContent then ⟨draft.written, true⟩
        else if span.containsLineBreak then ⟨'\n' :: draft.trimmed, true⟩
        else if draft.written.head?.any isInlineBlank then ⟨draft.written, true⟩
        else if rest.head?.any fun next =>
            next.isContent && draft.written.head?.any (wouldFuse · next.span) then
          ⟨' ' :: draft.written, false⟩
        else ⟨draft.written, false⟩ := by
  simp [afterRemoved, content]

/-- Blanks at the end of a line are dropped only as far as other text. -/
private theorem trimmed_append (stop : ∀ c ∈ base.head?, isInlineBlank c = false)
    (written : draft.written = blanks ++ base) :
    ∃ fewer, draft.trimmed = fewer ++ base ∧ fewer <:+ blanks := by
  refine ⟨blanks.dropWhile isInlineBlank, ?_, List.dropWhile_suffix _⟩
  rw [trimmed, written, List.dropWhile_append]
  split
  next all =>
    rw [List.isEmpty_iff] at all
    rw [all, List.nil_append]
    cases base with
    | nil => rfl
    | cons c others => simp [stop c rfl]
  · rfl

/-- Whether text ends a line. -/
def breaks (text : Text) : Bool :=
  text.any isLineBreak

/-- What a draft has gained since it was `base`: blanks, which end a line only if `broken`. -/
def Gains (base : Text) (broken : Bool) (draft : Draft) : Prop :=
  ∃ blanks, draft.written = blanks ++ base ∧ (∀ c ∈ blanks, isBlankChar c = true)
    ∧ (breaks blanks = true → broken = true)

theorem Gains.mono {broken more : Bool} (gains : Gains base broken draft)
    (implies : broken = true → more = true) : Gains base more draft := by
  obtain ⟨blanks, written, blank, ends⟩ := gains
  exact ⟨blanks, written, blank, fun h => implies (ends h)⟩

private theorem Gains.cons {broken : Bool} (gains : Gains base broken draft) {c : Char}
    (blank : isBlankChar c = true) (breaks : isLineBreak c = true → broken = true)
    (skipping : Bool) : Gains base broken ⟨c :: draft.written, skipping⟩ := by
  obtain ⟨blanks, written, all, ends⟩ := gains
  refine ⟨c :: blanks, by rw [written]; rfl, ?_, ?_⟩
  · rintro d (_ | ⟨_, member⟩)
    · exact blank
    · exact all d member
  · simp only [Draft.breaks, List.any_cons, Bool.or_eq_true]
    rintro (first | later)
    · exact breaks first
    · exact ends later

private theorem Gains.trimmed {broken : Bool} (gains : Gains base broken draft)
    (stop : ∀ c ∈ base.head?, isInlineBlank c = false) (skipping : Bool) :
    Gains base broken ⟨draft.trimmed, skipping⟩ := by
  obtain ⟨blanks, written, all, ends⟩ := gains
  obtain ⟨fewer, trimmed, suffix⟩ := trimmed_append stop written
  refine ⟨fewer, trimmed, fun c member => all c (suffix.subset member), fun broken => ends ?_⟩
  simp only [Draft.breaks, List.any_eq_true] at broken ⊢
  obtain ⟨c, member, lineBreak⟩ := broken
  exact ⟨c, suffix.subset member, lineBreak⟩

private theorem Gains.wrote {broken : Bool} (gains : Gains base broken draft)
    (regular : piece.Regular) (blank : piece.span.kind.isBlank = true) (skipping : Bool) :
    Gains base (piece.span.containsLineBreak || broken)
      ⟨piece.span.text.reverse ++ draft.written, skipping⟩ := by
  obtain ⟨blanks, written, all, ends⟩ := gains
  refine ⟨piece.span.text.reverse ++ blanks, by rw [written, List.append_assoc], ?_, ?_⟩
  · intro c member
    rcases List.mem_append.mp member with first | later
    · exact regular.isBlankChar_of_blank blank c (List.mem_reverse.mp first)
    · exact all c later
  · simp only [Draft.breaks, Span.containsLineBreak, List.any_append, List.any_reverse,
      Bool.or_eq_true]
    exact Or.imp_right ends

/-- A removed piece leaves blanks behind. -/
private theorem Gains.afterRemoved {broken : Bool} (gains : Gains base broken draft)
    (stop : ∀ c ∈ base.head?, isInlineBlank c = false) (span : Span) (rest : List Piece) :
    Gains base (span.containsLineBreak || broken) (draft.afterRemoved span rest) := by
  have weaker : Gains base (span.containsLineBreak || broken) draft :=
    gains.mono fun h => by simp [h]
  unfold Draft.afterRemoved
  split
  · exact weaker.trimmed stop true
  · split
    · exact weaker
    · split
      next lineBreak =>
        exact (weaker.trimmed stop true).cons (by decide) (fun _ => by simp [lineBreak]) true
      · split
        · exact weaker
        · split
          · exact weaker.cons (by decide) (fun h => absurd h (by decide)) false
          · exact weaker

private theorem any_containsLineBreak_cons (broken : Bool) :
    ((piece :: gap).any (·.span.containsLineBreak) || broken)
      = (gap.any (·.span.containsLineBreak) || (piece.span.containsLineBreak || broken)) := by
  rw [List.any_cons]
  cases piece.span.containsLineBreak <;> simp

/-- A gap leaves blanks behind. -/
theorem gains_through {broken : Bool} (gains : Gains base broken draft)
    (stop : (∃ piece ∈ gap, piece.removed = true) → ∀ c ∈ base.head?, isInlineBlank c = false)
    (ahead : List Piece) (regular : ∀ piece ∈ gap, piece.Regular)
    (empty : ∀ piece ∈ gap, piece.isContent = false) :
    Gains base (gap.any (·.span.containsLineBreak) || broken) (draft.through ahead gap) := by
  induction gap generalizing draft broken with
  | nil => simpa [through] using gains
  | cons piece others ih =>
    have one := regular piece List.mem_cons_self
    have stopLater := fun removed : ∃ piece ∈ others, piece.removed = true =>
      stop (removed.imp fun _ => And.imp_left (List.mem_cons_of_mem piece))
    have later (draft : Draft) (broken : Bool) (gains : Gains base broken draft) :=
      ih gains stopLater (fun other member => regular other (List.mem_cons_of_mem _ member))
        fun other member => empty other (List.mem_cons_of_mem _ member)
    simp only [through]
    rw [any_containsLineBreak_cons]
    split
    · exact later _ _ (gains.mono fun h => by simp [h])
    · rcases one.gap_cases (empty piece List.mem_cons_self) with ⟨removed, -, -⟩ | ⟨kept, blank⟩
      · rw [if_pos removed]
        exact later _ _ (gains.afterRemoved (stop ⟨piece, List.mem_cons_self, removed⟩) _ _)
      · rw [if_neg (by simp [kept])]
        exact later _ _ (gains.wrote one blank false)

theorem through_append : draft.through ahead (gap ++ rest)
    = (draft.through (rest ++ ahead) gap).through ahead rest := by
  induction gap generalizing draft with
  | nil => rfl
  | cons piece others ih =>
    simp only [List.cons_append, through, ih, List.append_assoc]
    split
    · rfl
    · split <;> rfl

/-- What is written up to other text than blanks stays written. -/
theorem exists_append_after
    (stop : (∃ piece ∈ gap, piece.removed = true) → ∀ c ∈ base.head?, isInlineBlank c = false)
    (written : ∃ more, draft.written = more ++ base) :
    ∃ more, (draft.after gap).written = more ++ base := by
  induction gap generalizing draft with
  | nil => exact written
  | cons piece rest ih =>
    have later (draft : Draft) (written : ∃ more, draft.written = more ++ base) :=
      ih (fun removed => stop (removed.imp fun _ => And.imp_left (List.mem_cons_of_mem piece)))
        written
    obtain ⟨more, written⟩ := written
    simp only [after]
    split
    · exact later _ ⟨more, written⟩
    · split
      next removed =>
        apply later
        obtain ⟨fewer, trimmed, -⟩ :=
          trimmed_append (stop ⟨piece, List.mem_cons_self, removed⟩) written
        unfold afterRemoved
        split
        · exact ⟨fewer, trimmed⟩
        · split
          · exact ⟨more, written⟩
          · split
            · exact ⟨'\n' :: fewer, by rw [trimmed]; rfl⟩
            · split
              · exact ⟨more, written⟩
              · split
                · exact ⟨' ' :: more, by rw [written]; rfl⟩
                · exact ⟨more, written⟩
      · exact later _ ⟨piece.span.text.reverse ++ more, by rw [written, List.append_assoc]⟩

/-- Pieces of which none is removed are written as they are. -/
theorem through_of_kept (kept : ∀ piece ∈ gap, piece.removed = false)
    (writing : draft.skipping = false) (ahead : List Piece) :
    draft.through ahead gap = ⟨(Piece.textOf gap).reverse ++ draft.written, false⟩ := by
  induction gap generalizing draft with
  | nil =>
    obtain ⟨written, skipping⟩ := draft
    simp_all [through]
  | cons piece others ih =>
    have here := kept piece List.mem_cons_self
    have later := fun other member => kept other (List.mem_cons_of_mem _ member)
    simp [through, writing, here, ih later]

private theorem hasContent_trimmed : Draft.hasContent ⟨draft.trimmed, true⟩ = draft.hasContent := by
  have whole := List.takeWhile_append_dropWhile (p := isInlineBlank) (l := draft.written)
  have blank : (draft.written.takeWhile isInlineBlank).any (!Unicode.isWhiteSpace ·) = false := by
    rw [List.any_eq_false]
    intro c member
    have inline := List.mem_takeWhile_imp member
    simp [isWhiteSpace_of_isBlankChar (c := c) (by simp [isBlankChar, inline])]
  rw [hasContent, hasContent, trimmed, ← whole, List.any_append, blank, Bool.false_or, whole]

/-- What is written in place of a removed piece is nothing to be seen. -/
theorem hasContent_afterRemoved (span : Span) (rest : List Piece) :
    (draft.afterRemoved span rest).hasContent = draft.hasContent := by
  have lineFeed : Unicode.isWhiteSpace '\n' = true := by decide
  have space : Unicode.isWhiteSpace ' ' = true := by decide
  unfold afterRemoved
  split
  · exact hasContent_trimmed
  split
  · rfl
  split
  · rw [← @hasContent_trimmed draft, hasContent, List.any_cons, lineFeed]
    rfl
  split
  · rfl
  split
  · rw [hasContent, List.any_cons, space]
    rfl
  · rfl

section Tight

variable (solid : base.any (!Unicode.isWhiteSpace ·) = true)

include solid

private theorem hasContent_of_suffix (suffix : base <:+ draft.written) :
    draft.hasContent = true := by
  obtain ⟨blanks, written⟩ := suffix
  rw [hasContent, ← written, List.any_append, solid, Bool.or_true]

/-- Once something is written after the content of a line, it stays. -/
private theorem longer_through (stop : ∀ c ∈ base.head?, isInlineBlank c = false)
    (written : ∃ blanks, draft.written = blanks ++ base ∧ blanks ≠ [])
    (content : next.isContent = true) :
    ∃ blanks, (draft.through [next] gap).written = blanks ++ base ∧ blanks ≠ [] := by
  induction gap generalizing draft with
  | nil => exact written
  | cons piece others ih =>
    obtain ⟨blanks, written, some⟩ := written
    simp only [through]
    split
    · exact ih ⟨blanks, written, some⟩
    · split
      · refine ih ?_
        have filled := hasContent_of_suffix solid ⟨blanks, written.symm⟩
        rw [afterRemoved_of_content (by simp [content]), filled]
        simp only [Bool.not_true, Bool.false_eq_true, if_false]
        split
        · obtain ⟨fewer, trimmed, -⟩ := trimmed_append stop written
          exact ⟨'\n' :: fewer, by rw [trimmed]; rfl, List.cons_ne_nil _ _⟩
        · split
          · exact ⟨blanks, written, some⟩
          · split
            · exact ⟨' ' :: blanks, by rw [written]; rfl, List.cons_ne_nil _ _⟩
            · exact ⟨blanks, written, some⟩
      · exact ih ⟨piece.span.text.reverse ++ blanks, by simp [written], by simp [some]⟩

private theorem through_ne (stop : ∀ c ∈ base.head?, isInlineBlank c = false)
    (written : ∃ blanks, draft.written = blanks ++ base ∧ blanks ≠ [])
    (content : next.isContent = true) : (draft.through [next] gap).written ≠ base := by
  intro same
  obtain ⟨blanks, written, some⟩ := longer_through solid stop written content
  exact some (by simpa using written.symm.trans same)

/-- Nothing is written between two kept pieces exactly if all pieces between them are removed, none
of these ends a line, and the two may stand next to each other. -/
theorem written_through_eq_iff (stop : ∀ c ∈ base.head?, isInlineBlank c = false)
    (content : next.isContent = true) (regular : ∀ piece ∈ gap, piece.Regular)
    (empty : ∀ piece ∈ gap, piece.isContent = false) :
    (Draft.through ⟨base, false⟩ [next] gap).written = base
      ↔ gap = [] ∨ (∀ piece ∈ gap, piece.removed = true ∧ piece.span.containsLineBreak = false)
        ∧ base.head?.any (wouldFuse · next.span) = false := by
  induction gap with
  | nil => simp [through]
  | cons piece others ih =>
    have one := regular piece List.mem_cons_self
    have later := ih (fun other member => regular other (List.mem_cons_of_mem _ member))
      fun other member => empty other (List.mem_cons_of_mem _ member)
    have filled : Draft.hasContent ⟨base, false⟩ = true :=
      hasContent_of_suffix solid List.suffix_rfl
    have noBlank : base.head?.any isInlineBlank = false := by
      cases base with
      | nil => rfl
      | cons c others => simpa using stop c rfl
    simp only [through, Bool.false_and, Bool.false_eq_true, if_false, List.cons_ne_nil, false_or,
      List.forall_mem_cons]
    rcases one.gap_cases (empty piece List.mem_cons_self) with ⟨removed, -, -⟩ | ⟨kept, blank⟩
    · rw [if_pos removed, afterRemoved_of_content (by simp [content]), filled]
      simp only [Bool.not_true, Bool.false_eq_true, if_false, removed, true_and]
      rw [noBlank]
      by_cases lineBreak : piece.span.containsLineBreak = true
      · rw [if_pos lineBreak]
        refine iff_of_false (through_ne solid stop ?_ content) (by simp [lineBreak])
        obtain ⟨fewer, trimmed, -⟩ : ∃ fewer, Draft.trimmed ⟨base, false⟩ = fewer ++ base ∧ _ :=
          trimmed_append stop (List.nil_append base).symm
        exact ⟨'\n' :: fewer, by rw [trimmed]; rfl, List.cons_ne_nil _ _⟩
      · rw [if_neg lineBreak, if_neg Bool.false_ne_true]
        simp only [Bool.not_eq_true] at lineBreak
        cases others with
        | nil =>
          -- the next piece comes right after the removed one, so the two sides are compared
          simp only [List.nil_append, List.head?_cons, Option.any_some, content, Bool.true_and,
            through, lineBreak, List.not_mem_nil, false_implies, implies_true, and_self, true_and]
          cases base.head?.any (wouldFuse · next.span) with
          | true => simp
          | false => simp
        | cons other more =>
          have noContent := empty other (by simp)
          simp only [List.cons_append, List.head?_cons, Option.any_some, noContent, Bool.false_and,
            Bool.false_eq_true, if_false]
          simpa [lineBreak] using later
    · rw [if_neg (by simp [kept])]
      refine iff_of_false (through_ne solid stop ?_ content) (by simp [kept])
      exact ⟨piece.span.text.reverse, rfl, by simpa using one.nonempty⟩

/-- Once the line has content, a gap in it ends a line exactly if one of its pieces does. -/
theorem breaks_through {broken : Bool}
    (stop : (∃ piece ∈ gap, piece.removed = true) → ∀ c ∈ base.head?, isInlineBlank c = false)
    (written : ∃ blanks, draft.written = blanks ++ base ∧ breaks blanks = broken)
    (content : next.isContent = true) (regular : ∀ piece ∈ gap, piece.Regular)
    (empty : ∀ piece ∈ gap, piece.isContent = false) :
    ∃ blanks, (draft.through [next] gap).written = blanks ++ base
      ∧ breaks blanks = (gap.any (·.span.containsLineBreak) || broken) := by
  induction gap generalizing draft broken with
  | nil => simpa [through] using written
  | cons piece others ih =>
    have one := regular piece List.mem_cons_self
    have stopLater := fun removed : ∃ piece ∈ others, piece.removed = true =>
      stop (removed.imp fun _ => And.imp_left (List.mem_cons_of_mem piece))
    have later (draft : Draft) (broken : Bool)
        (written : ∃ blanks, draft.written = blanks ++ base ∧ breaks blanks = broken) :=
      ih stopLater written (fun other member => regular other (List.mem_cons_of_mem _ member))
        fun other member => empty other (List.mem_cons_of_mem _ member)
    obtain ⟨blanks, written, ends⟩ := written
    rw [any_containsLineBreak_cons]
    simp only [through]
    split
    next skipped =>
      -- a blank that is left out is none that ends a line
      have whitespace : piece.span.kind = .whitespace := by
        simp only [Bool.and_eq_true] at skipped
        simpa [Piece.isWhitespace] using skipped.2
      have inline : piece.span.containsLineBreak = false := by
        rw [Span.containsLineBreak, List.any_eq_false]
        intro c member lineBreak
        have blank := one.whitespace whitespace c member
        simp [not_isInlineBlank_of_isLineBreak lineBreak] at blank
      rw [inline]
      exact later _ _ ⟨blanks, written, by simpa using ends⟩
    · rcases one.gap_cases (empty piece List.mem_cons_self) with ⟨removed, -, -⟩ | ⟨kept, blank⟩
      · rw [if_pos removed]
        refine later _ _ ?_
        have filled := hasContent_of_suffix solid ⟨blanks, written.symm⟩
        rw [afterRemoved_of_content (by simp [content]), filled]
        simp only [Bool.not_true, Bool.false_eq_true, if_false]
        split
        next lineBreak =>
          -- the line feed that is written makes up for the line breaks of the piece
          obtain ⟨fewer, trimmed, -⟩ :=
            trimmed_append (stop ⟨piece, List.mem_cons_self, removed⟩) written
          exact ⟨'\n' :: fewer, by rw [trimmed]; rfl, by simp [breaks, isLineBreak, lineBreak]⟩
        next inline =>
          rw [Bool.not_eq_true] at inline
          rw [inline]
          split
          · exact ⟨blanks, written, by simpa using ends⟩
          split
          · refine ⟨' ' :: blanks, by rw [written]; rfl, ?_⟩
            simpa [breaks, isLineBreak] using ends
          · exact ⟨blanks, written, by simpa using ends⟩
      · rw [if_neg (by simp [kept])]
        refine later _ _ ⟨piece.span.text.reverse ++ blanks, by simp [written], ?_⟩
        rw [breaks, List.any_append, List.any_reverse]
        exact congrArg (piece.span.containsLineBreak || ·) ends

end Tight

/-- What is to be seen on a line stays, and so does what is kept. -/
theorem hasContent_through (ahead : List Piece) (regular : ∀ piece ∈ gap, piece.Regular)
    (seen : draft.hasContent = true ∨ ∃ piece ∈ gap, piece.removed = false
      ∧ piece.span.text.any (!Unicode.isWhiteSpace ·) = true) :
    (draft.through ahead gap).hasContent = true := by
  induction gap generalizing draft with
  | nil => simpa [through] using seen
  | cons piece others ih =>
    have later (draft : Draft) (seen : draft.hasContent = true ∨ ∃ piece ∈ others,
        piece.removed = false ∧ piece.span.text.any (!Unicode.isWhiteSpace ·) = true) :=
      ih (fun other member => regular other (List.mem_cons_of_mem _ member)) seen
    simp only [List.exists_mem_cons_iff] at seen
    simp only [through]
    split
    next skipped =>
      -- the blank that is left out is nothing to be seen
      rw [Bool.and_eq_true] at skipped
      have hidden := (regular piece List.mem_cons_self).hidden_of_isBlank
        (Piece.isBlank_of_isWhitespace skipped.2)
      refine later draft (seen.imp_right fun seen => seen.resolve_left ?_)
      rintro ⟨-, visible⟩
      simp [hidden] at visible
    · split
      next removed =>
        rw [← hasContent_afterRemoved piece.span (others ++ ahead)] at seen
        refine later _ (seen.imp_right fun seen => seen.resolve_left fun here => ?_)
        simp [removed] at here
      · refine later _ ?_
        rcases seen with already | ⟨-, visible⟩ | onward
        · exact .inl (by simp_all [hasContent])
        · exact .inl (by simp_all [hasContent])
        · exact .inr onward

end Draft

end CommentStrip
