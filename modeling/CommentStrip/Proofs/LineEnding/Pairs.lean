import CommentStrip.Proofs.LineEnding.Rewriting
import CommentStrip.Proofs.Place

/-!
# Texts whose lines end with pairs

A text may end all of its lines with a carriage return and a line feed. No piece of it then holds
one of the two without the other, and what is kept of it does not either. A single line feed comes
only from rewriting itself, which writes one in place of a removed piece with a line break in it
where text is kept on both sides.
-/
namespace CommentStrip

namespace Text

/-- Every line feed comes directly after a carriage return. -/
structure FeedsPaired (text : Text) : Prop where
  head : text.head? ≠ some '\n'
  chain : text.IsChain fun c d => d = '\n' → c = '\r'

/-- Every carriage return comes directly before a line feed. -/
structure CarriagesPaired (text : Text) : Prop where
  last : text.getLast? ≠ some '\r'
  chain : text.IsChain fun c d => c = '\r' → d = '\n'

/-- Carriage returns and line feeds stand together only. -/
structure Paired (text : Text) : Prop where
  feeds : text.FeedsPaired
  carriages : text.CarriagesPaired

variable {first second text : Text}

namespace FeedsPaired

theorem nil : FeedsPaired [] := ⟨by simp, .nil⟩

theorem append (one : FeedsPaired first) (two : FeedsPaired second) :
    FeedsPaired (first ++ second) := by
  refine ⟨?_, List.isChain_append.mpr ⟨one.chain, two.chain, ?_⟩⟩
  · cases first with
    | nil => exact two.head
    | cons c rest => exact one.head
  · rintro c - d begins rfl
    exact absurd begins two.head

theorem left (whole : FeedsPaired (first ++ second)) : FeedsPaired first := by
  refine ⟨?_, (List.isChain_append.mp whole.chain).1⟩
  cases first with
  | nil => simp
  | cons c rest => exact whole.head

theorem right (whole : FeedsPaired (first ++ second)) (uncut : ¬CutsLineBreak first second) :
    FeedsPaired second := by
  obtain ⟨-, chain, meets⟩ := List.isChain_append.mp whole.chain
  -- a line feed at the start would have its carriage return in the first text
  refine ⟨fun feed => ?_, chain⟩
  cases last : first.getLast? with
  | none =>
    rw [List.getLast?_eq_none_iff.mp last] at whole
    exact whole.head feed
  | some c => exact uncut ⟨last.trans (congrArg some (meets c last '\n' feed rfl)), feed⟩

end FeedsPaired

namespace CarriagesPaired

theorem nil : CarriagesPaired [] := ⟨by simp, .nil⟩

theorem append (one : CarriagesPaired first) (two : CarriagesPaired second) :
    CarriagesPaired (first ++ second) := by
  refine ⟨?_, List.isChain_append.mpr ⟨one.chain, two.chain, ?_⟩⟩
  · have ends := two.last
    rw [List.getLast?_append]
    cases last : second.getLast? with
    | none => exact one.last
    | some c => rwa [last] at ends
  · rintro c ends d - rfl
    exact absurd ends one.last

theorem right (whole : CarriagesPaired (first ++ second)) : CarriagesPaired second := by
  refine ⟨fun carriage => whole.last ?_, (List.isChain_append.mp whole.chain).2.1⟩
  rw [List.getLast?_append, carriage]
  rfl

theorem left (whole : CarriagesPaired (first ++ second)) (uncut : ¬CutsLineBreak first second) :
    CarriagesPaired first := by
  obtain ⟨chain, -, meets⟩ := List.isChain_append.mp whole.chain
  refine ⟨fun carriage => ?_, chain⟩
  cases head : second.head? with
  | none =>
    rw [List.head?_eq_none_iff.mp head, List.append_nil] at whole
    exact whole.last carriage
  | some d => exact uncut ⟨carriage, head.trans (congrArg some (meets '\r' carriage d head rfl))⟩

end CarriagesPaired

/-- After a text with no carriage return alone, the line feeds of a text are paired exactly if they are
by themselves. -/
theorem feedsPaired_append_iff (one : CarriagesPaired first) :
    FeedsPaired (first ++ second) ↔ FeedsPaired first ∧ FeedsPaired second :=
  ⟨fun whole => ⟨whole.left, whole.right fun cut => one.last cut.1⟩,
    fun both => both.1.append both.2⟩

theorem Paired.right (whole : Paired (first ++ second)) (uncut : ¬CutsLineBreak first second) :
    Paired second :=
  ⟨whole.feeds.right uncut, whole.carriages.right⟩

theorem Paired.left (whole : Paired (first ++ second)) (uncut : ¬CutsLineBreak first second) :
    Paired first :=
  ⟨whole.feeds.left, whole.carriages.left uncut⟩

theorem paired_of_unbroken (unbroken : ∀ c ∈ text, isLineBreak c = false) : Paired text := by
  have noFeed : ∀ c ∈ text, c ≠ '\n' := by
    rintro c member rfl
    exact absurd (unbroken _ member) (by decide)
  have noReturn : ∀ c ∈ text, c ≠ '\r' := by
    rintro c member rfl
    exact absurd (unbroken _ member) (by decide)
  refine ⟨⟨fun feed => noFeed _ (List.mem_of_head? feed) rfl, ?_⟩,
    ⟨fun carriage => noReturn _ (List.mem_of_getLast? carriage) rfl, ?_⟩⟩
  · exact (List.pairwise_of_forall_mem_list fun c _ d member feed =>
      absurd feed (noFeed d member)).isChain
  · exact (List.pairwise_of_forall_mem_list fun c member d _ carriage =>
      absurd carriage (noReturn c member)).isChain

/-- Blanks at the end of a text may come or go. -/
theorem paired_append_of_unbroken (first : Text) (unbroken : ∀ c ∈ second, isLineBreak c = false) :
    (CarriagesPaired (first ++ second) ↔ CarriagesPaired first)
      ∧ (CarriagesPaired first → (FeedsPaired (first ++ second) ↔ FeedsPaired first)) := by
  have plain := paired_of_unbroken unbroken
  refine ⟨⟨fun whole => whole.left ?_, (·.append plain.carriages)⟩, fun one => ?_⟩
  · exact fun cut => plain.feeds.head cut.2
  · rw [feedsPaired_append_iff one, and_iff_left plain.feeds]

end Text

/-- Something of the piece is kept, and to be seen. -/
def Piece.isVisible (piece : Piece) : Bool :=
  !piece.removed && piece.span.text.any (!Unicode.isWhiteSpace ·)

/-- Blanks are not to be seen. -/
theorem Piece.Regular.not_isVisible_of_isWhitespace {piece : Piece} (regular : piece.Regular)
    (blank : piece.isWhitespace = true) : piece.isVisible = false := by
  rw [isVisible, regular.hidden_of_isBlank (isBlank_of_isWhitespace blank), Bool.and_false]

/-- A removed piece with a line break in it, with something to be seen before it on its line and
content after it. -/
structure LeavesFeed (before : List Piece) (piece : Piece) (rest : List Piece) : Prop where
  removed : piece.removed = true
  broken : piece.span.containsLineBreak = true
  visible : before.any Piece.isVisible = true
  content : rest.any Piece.isContent = true

namespace Draft

variable {draft : Draft} {done line : List Piece}

/-- Blanks that are cut off do not matter to the pairs. -/
private theorem paired_trimmed (carriages : Text.CarriagesPaired draft.written.reverse) :
    Text.CarriagesPaired draft.trimmed.reverse
      ∧ (Text.FeedsPaired draft.trimmed.reverse ↔ Text.FeedsPaired draft.written.reverse) := by
  have whole : draft.written.reverse
      = draft.trimmed.reverse ++ (draft.written.takeWhile isInlineBlank).reverse := by
    rw [← List.reverse_append, trimmed, List.takeWhile_append_dropWhile]
  have blanks : ∀ c ∈ (draft.written.takeWhile isInlineBlank).reverse, isLineBreak c = false := by
    intro c member
    have blank := List.mem_takeWhile_imp (List.mem_reverse.mp member)
    by_contra lineBreak
    rw [Bool.not_eq_false] at lineBreak
    simp [not_isInlineBlank_of_isLineBreak lineBreak] at blank
  have same := Text.paired_append_of_unbroken draft.trimmed.reverse blanks
  rw [whole] at carriages ⊢
  exact ⟨same.1.mp carriages, (same.2 (same.1.mp carriages)).symm⟩

/-- In place of a removed piece a line feed is written that stands alone, or nothing that matters to
the pairs. -/
private theorem paired_afterRemoved (span : Span) (rest : List Piece)
    (carriages : Text.CarriagesPaired draft.written.reverse) :
    Text.CarriagesPaired (draft.afterRemoved span rest).written.reverse
      ∧ (Text.FeedsPaired (draft.afterRemoved span rest).written.reverse
        ↔ Text.FeedsPaired draft.written.reverse ∧ ¬(rest.any Piece.isContent = true
          ∧ draft.hasContent = true ∧ span.containsLineBreak = true)) := by
  have trimmed := paired_trimmed carriages
  unfold afterRemoved
  split
  next last =>
    rw [and_iff_left fun all => by simp [all.1] at last]
    exact trimmed
  split
  next first =>
    rw [and_iff_left fun all => by simp [all.2.1] at first]
    exact ⟨carriages, Iff.rfl⟩
  split
  next between seen broken =>
    simp only [Bool.not_eq_true, Bool.not_eq_false'] at between seen
    simp only [List.reverse_cons]
    refine ⟨trimmed.1.append ⟨by simp, .singleton _⟩, iff_of_false (fun feeds => ?_) (by simp_all)⟩
    -- what is trimmed ends with no carriage return
    exact ((Text.feedsPaired_append_iff trimmed.1).mp feeds).2.head rfl
  next unbroken =>
    rw [and_iff_left fun all => unbroken all.2.2]
    split
    · exact ⟨carriages, Iff.rfl⟩
    split
    · have plain : ∀ c ∈ [' '], isLineBreak c = false := by simp [isLineBreak]
      have space := Text.paired_append_of_unbroken draft.written.reverse plain
      simpa using ⟨space.1.mpr carriages, space.2 carriages⟩
    · exact ⟨carriages, Iff.rfl⟩

/-- What holds at every place of a list with a first element. -/
private theorem forall_split_cons {α : Type} {first : α} {others : List α}
    {P : List α → α → List α → Prop} :
    (∀ before one rest, first :: others = before ++ one :: rest → P before one rest)
      ↔ P [] first others
        ∧ ∀ before one rest, others = before ++ one :: rest → P (first :: before) one rest := by
  constructor
  · intro each
    exact ⟨each [] first others rfl, fun before one rest split =>
      each (first :: before) one rest (congrArg (first :: ·) split)⟩
  · rintro ⟨here, later⟩ before one rest split
    rcases List.cons_eq_append_iff.mp split with ⟨rfl, same⟩ | ⟨more, rfl, same⟩
    · obtain ⟨rfl, rfl⟩ := List.cons.inj same
      exact here
    · exact later more one rest same

/-- The rest of a line after the pieces `done` is written without a line feed that stands alone, unless
a removed piece leaves one. -/
theorem paired_after (regular : ∀ piece ∈ line, piece.Regular)
    (paired : ∀ piece ∈ line, piece.span.text.Paired)
    (carriages : Text.CarriagesPaired draft.written.reverse)
    (seen : draft.hasContent = done.any Piece.isVisible) :
    Text.CarriagesPaired (draft.after line).written.reverse
      ∧ (Text.FeedsPaired (draft.after line).written.reverse
        ↔ Text.FeedsPaired draft.written.reverse
          ∧ ∀ before piece rest, line = before ++ piece :: rest →
            ¬LeavesFeed (done ++ before) piece rest) := by
  induction line generalizing draft done with
  | nil => exact ⟨carriages, by simp [Draft.after]⟩
  | cons piece rest ih =>
    rw [List.forall_mem_cons] at regular paired
    rw [forall_split_cons, Draft.after]
    -- what a step of the draft has to keep for the rest of the line
    have onward {next : Draft} (one : Text.CarriagesPaired next.written.reverse)
        (visible : next.hasContent = (done.any Piece.isVisible || piece.isVisible))
        (feeds : Text.FeedsPaired next.written.reverse
          ↔ Text.FeedsPaired draft.written.reverse ∧ ¬LeavesFeed (done ++ []) piece rest) :
        Text.CarriagesPaired (next.after rest).written.reverse
          ∧ (Text.FeedsPaired (next.after rest).written.reverse
            ↔ Text.FeedsPaired draft.written.reverse ∧ ¬LeavesFeed (done ++ []) piece rest
              ∧ ∀ before one later, rest = before ++ one :: later →
                ¬LeavesFeed (done ++ piece :: before) one later) := by
      have here : next.hasContent = (done ++ [piece]).any Piece.isVisible := by
        simpa using visible
      have later := ih regular.2 paired.2 one here
      rw [feeds, and_assoc] at later
      simpa only [List.append_assoc, List.singleton_append] using later
    split
    next skipped =>
      -- a blank that is left out is not removed, and nothing to be seen
      rw [Bool.and_eq_true] at skipped
      have hidden := regular.1.not_isVisible_of_isWhitespace skipped.2
      have kept := regular.1.kept_of_isBlank (Piece.isBlank_of_isWhitespace skipped.2)
      refine onward carriages ?_ ?_
      · rw [seen, hidden, Bool.or_false]
      · rw [and_iff_left fun leaves => by simp [leaves.removed] at kept]
    split
    next removed =>
      obtain ⟨one, feeds⟩ := paired_afterRemoved piece.span rest carriages
      refine onward one ?_ ?_
      · rw [hasContent_afterRemoved, seen]
        simp [Piece.isVisible, removed]
      · -- what the draft shows is what the pieces before show
        rw [feeds, seen, List.append_nil]
        refine and_congr_right' (not_congr ⟨fun all => ?_, fun leaves => ?_⟩)
        · exact ⟨removed, all.2.2, all.2.1, all.1⟩
        · exact ⟨leaves.content, leaves.visible, leaves.broken⟩
    next kept =>
      rw [Bool.not_eq_true] at kept
      have written : (piece.span.text.reverse ++ draft.written).reverse
          = draft.written.reverse ++ piece.span.text := by simp
      refine onward ?_ ?_ ?_
      · rw [written]
        exact carriages.append paired.1.carriages
      · rw [← seen, hasContent, hasContent, List.any_append, List.any_reverse, Bool.or_comm]
        simp [Piece.isVisible, kept]
      · rw [written, Text.feedsPaired_append_iff carriages, and_iff_left paired.1.feeds,
          and_iff_left fun leaves => by simp [leaves.removed] at kept]

end Draft

section Lines

variable {pieces line : List Piece}

theorem paired_textOf (paired : ∀ piece ∈ pieces, piece.span.text.Paired) :
    (Piece.textOf pieces).Paired := by
  induction pieces with
  | nil => exact ⟨.nil, .nil⟩
  | cons piece rest ih =>
    rw [List.forall_mem_cons] at paired
    have later := ih paired.2
    exact ⟨paired.1.feeds.append later.feeds, paired.1.carriages.append later.carriages⟩

theorem paired_writeGroup (regular : ∀ piece ∈ line, piece.Regular)
    (paired : ∀ piece ∈ line, piece.span.text.Paired) :
    Text.CarriagesPaired (writeGroup line)
      ∧ (Text.FeedsPaired (writeGroup line) ↔ ∀ before piece rest,
        line = before ++ piece :: rest → ¬LeavesFeed before piece rest) := by
  unfold writeGroup
  split
  next kept =>
    -- nothing is removed, so no piece leaves a line feed
    have whole := paired_textOf paired
    refine ⟨whole.carriages, iff_of_true whole.feeds ?_⟩
    rintro before piece rest rfl leaves
    have stays := List.all_eq_true.mp kept piece (by simp)
    simp [leaves.removed] at stays
  split
  · have drafted := @Draft.paired_after .empty [] line regular paired .nil rfl
    exact ⟨drafted.1, drafted.2.trans (and_iff_right .nil)⟩
  next empty =>
    -- the line goes, and no content comes after any of its pieces
    refine ⟨.nil, iff_of_true .nil ?_⟩
    rintro before piece rest rfl leaves
    simp [leaves.content] at empty

/-- The lines are written without a line feed that stands alone if each of them is. -/
theorem paired_writeLines (regular : ∀ piece ∈ pieces, piece.Regular)
    (paired : ∀ piece ∈ pieces, piece.span.text.Paired) :
    Text.CarriagesPaired (writeLines pieces)
      ∧ (Text.FeedsPaired (writeLines pieces) ↔ ∀ line ∈ lineGroups pieces,
        ∀ before piece rest, line = before ++ piece :: rest → ¬LeavesFeed before piece rest) := by
  have each : ∀ line ∈ lineGroups pieces, ∀ piece ∈ line, piece ∈ pieces := by
    intro line member piece inside
    rw [← flatten_lineGroups pieces]
    exact List.mem_flatten_of_mem member inside
  -- line by line, each of which ends with no carriage return alone
  rw [writeLines]
  generalize lineGroups pieces = lines at each
  induction lines with
  | nil => exact ⟨.nil, by simpa using Text.FeedsPaired.nil⟩
  | cons line others ih =>
    rw [List.forall_mem_cons] at each
    have first := paired_writeGroup (fun piece inside => regular piece (each.1 piece inside))
      fun piece inside => paired piece (each.1 piece inside)
    have later := ih each.2
    rw [List.flatMap_cons, List.forall_mem_cons, Text.feedsPaired_append_iff first.1, first.2,
      later.2]
    exact ⟨first.1.append later.1, Iff.rfl⟩

/-- The pieces of a paired text are paired. -/
theorem Language.Edit.paired {language : Language} {source : Text}
    (edit : language.Edit source pieces) (paired : source.Paired) :
    ∀ piece ∈ pieces, piece.span.text.Paired := by
  intro piece member
  obtain ⟨earlier, later, split⟩ := List.append_of_mem member
  have before := edit.not_cutsLineBreak split
  have after := edit.not_cutsLineBreak (split.trans (List.append_cons ..))
  rw [← edit.textOf_pieces, split, Piece.textOf_append] at paired
  rw [Piece.textOf_append, Piece.textOf_cons, Piece.textOf_nil, List.append_nil] at after
  refine (paired.right before).left fun cut => after ⟨?_, cut.2⟩
  rw [List.getLast?_append, cut.1]
  rfl

/-- Where only blanks come before a removed piece with a line break in it, no line feed is left. -/
theorem Piece.Led.not_leavesFeed (led : Piece.Led pieces) (regular : ∀ piece ∈ pieces, piece.Regular)
    (member : line ∈ lineGroups pieces) {before rest : List Piece} {piece : Piece}
    (split : line = before ++ piece :: rest) : ¬LeavesFeed before piece rest := by
  intro leaves
  obtain ⟨-, blank⟩ := led.bare member before piece rest split leaves.removed leaves.broken
  obtain ⟨other, inside, visible⟩ := List.any_eq_true.mp leaves.visible
  have present : other ∈ pieces := by
    rw [← flatten_lineGroups pieces]
    exact List.mem_flatten_of_mem member (by simp [split, inside])
  simp [(regular other present).not_isVisible_of_isWhitespace (blank other inside)] at visible

end Lines

/--
Of a source whose line breaks are pairs, rewriting leaves no carriage return alone. It leaves a line
feed alone exactly if it removes a piece with a line break in it between something to be seen and
content of its line, which never happens in a language without block comments.
-/
theorem process_keeps_pairs_iff {language : Language} {options : Options} {source : Text}
    {analysis : Analysis} (known : language ∈ Language.registered)
    (analyzed : analyze language options source = .ok analysis) (feeds : source.FeedsPaired)
    (carriages : source.CarriagesPaired) :
    process language.name options source = .ok analysis.rewritten
      ∧ analysis.rewritten.text.CarriagesPaired
      ∧ (analysis.rewritten.text.FeedsPaired ↔ ∀ line ∈ lineGroups analysis.pieces,
        ∀ before piece rest, line = before ++ piece :: rest → ¬LeavesFeed before piece rest)
      ∧ (language.LineOriented → analysis.rewritten.text.FeedsPaired) := by
  have restricts := Analysis.restricts_of_analyze analyzed
  have edit := restricts.edit known
  have regular := edit.regular.each
  obtain ⟨noReturn, iffLeaves⟩ := paired_writeLines regular (edit.paired ⟨feeds, carriages⟩)
  refine ⟨process_of_analyze known analyzed, noReturn, iffLeaves, fun lines => ?_⟩
  refine iffLeaves.mpr fun line member before piece rest split => ?_
  exact (restricts.led lines edit).not_leavesFeed regular member split

/-- Nothing comes after the comment on its line, so no line feed is left for it. -/
theorem pairs_kept_after_trailing_comment :
    ∃ analysis, analyze .javaScript .standard "x /*\r\n*/\r\ny".toList = .ok analysis
      ∧ Text.FeedsPaired "x /*\r\n*/\r\ny".toList ∧ Text.CarriagesPaired "x /*\r\n*/\r\ny".toList
      ∧ process "JavaScript" .standard "x /*\r\n*/\r\ny".toList = .ok ⟨"x\r\ny".toList, 1⟩
      ∧ Text.CarriagesPaired "x\r\ny".toList
      ∧ ∀ line ∈ lineGroups analysis.pieces, ∀ before piece rest,
        line = before ++ piece :: rest → ¬LeavesFeed before piece rest := by
  have scanned : Language.javaScript.spans "x /*\r\n*/\r\ny".toList
      = .ok [⟨.code, 0, 1, 1, 1, "x".toList⟩, ⟨.whitespace, 1, 2, 1, 2, " ".toList⟩,
        ⟨.blockComment, 2, 8, 1, 3, "/*\r\n*/".toList⟩, ⟨.newline, 8, 10, 2, 3, "\r\n".toList⟩,
        ⟨.code, 10, 11, 3, 1, "y".toList⟩] := by
    rw [Language.spans_eq_lexWithin]
    decide +kernel
  have known : Language.javaScript ∈ Language.registered := by simp [Language.registered]
  obtain ⟨analysis, analyzed, written⟩ : ∃ analysis,
      analyze .javaScript .standard "x /*\r\n*/\r\ny".toList = .ok analysis
        ∧ analysis.rewritten = ⟨"x\r\ny".toList, 1⟩ :=
    ⟨_, analyze_of_spans .standard scanned, by decide +kernel⟩
  have feeds : Text.FeedsPaired "x /*\r\n*/\r\ny".toList := ⟨by decide, by decide⟩
  have carriages : Text.CarriagesPaired "x /*\r\n*/\r\ny".toList := ⟨by decide, by decide⟩
  obtain ⟨processed, noReturn, iffLeaves, -⟩ :=
    process_keeps_pairs_iff known analyzed feeds carriages
  rw [written] at processed noReturn iffLeaves
  exact ⟨analysis, analyzed, feeds, carriages, processed, noReturn,
    iffLeaves.mp ⟨by decide, by decide⟩⟩

/-- Code comes after the comment on its line, and a line feed alone takes the place of the pair. -/
theorem feed_alone_after_removed_comment :
    Text.FeedsPaired "a/*\r\n*/b".toList ∧ Text.CarriagesPaired "a/*\r\n*/b".toList
      ∧ process "javascript" .standard "a/*\r\n*/b".toList = .ok ⟨"a\nb".toList, 1⟩
      ∧ ¬Text.FeedsPaired "a\nb".toList := by
  have scanned : Language.javaScript.spans "a/*\r\n*/b".toList
      = .ok [⟨.code, 0, 1, 1, 1, "a".toList⟩,
        ⟨.blockComment, 1, 7, 1, 2, "/*\r\n*/".toList⟩, ⟨.code, 7, 8, 2, 3, "b".toList⟩] := by
    rw [Language.spans_eq_lexWithin]
    decide +kernel
  have found : Language.lookup "javascript" = .ok .javaScript := by rfl
  refine ⟨⟨by decide, by decide⟩, ⟨by decide, by decide⟩, ?_, fun feeds => ?_⟩
  · rw [process_of_lookup found, analyze_of_spans .standard scanned]
    decide +kernel
  · have alone : ¬List.IsChain (fun c d => d = '\n' → c = '\r') "a\nb".toList := by decide
    exact alone feeds.chain

end CommentStrip
