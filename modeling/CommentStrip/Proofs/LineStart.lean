import CommentStrip.Proofs.Indentation
import CommentStrip.Proofs.Lines

/-!
# Starts of lines

A piece that starts its line has a line break before it, or nothing, and blanks in between. It is
written after the same blanks, at the start of a line again. Where text is scanned, the blanks
between a line break and a span are the indentation of the span.
-/
namespace CommentStrip

/-- The pieces `earlier` are whole lines, and `blanks` are all that the next line begins with before a
piece that comes after them. -/
structure LineStart (earlier blanks : List Piece) : Prop where
  ends : ∀ piece ∈ earlier.getLast?, piece.isNewline = true
  blank : ∀ piece ∈ blanks, piece.isWhitespace = true

variable {pieces earlier blanks later : List Piece} {piece next : Piece}

theorem BlanksApart.eq_nil_or_singleton (apart : BlanksApart blanks)
    (blank : ∀ piece ∈ blanks, piece.isWhitespace = true) : blanks = [] ∨ ∃ piece, blanks = [piece] := by
  match blanks with
  | [] => exact .inl rfl
  | [piece] => exact .inr ⟨piece, rfl⟩
  | first :: second :: others =>
    exact absurd ⟨blank first (by simp), blank second (by simp)⟩ (List.isChain_cons_cons.mp apart).1

/-- Pieces end with at most one blank inside a line. -/
theorem BlanksApart.exists_blanks (apart : BlanksApart pieces) :
    ∃ earlier blanks, pieces = earlier ++ blanks
      ∧ (∀ piece ∈ earlier.getLast?, piece.isWhitespace = false)
      ∧ ∀ piece ∈ blanks, piece.isWhitespace = true := by
  rcases List.eq_nil_or_concat pieces with rfl | ⟨earlier, last, rfl⟩
  · exact ⟨[], [], rfl, by simp, by simp⟩
  rw [List.concat_eq_append] at apart ⊢
  cases blank : last.isWhitespace with
  | false => exact ⟨earlier ++ [last], [], by simp, by simpa using blank, by simp⟩
  | true =>
    refine ⟨earlier, [last], rfl, fun piece ends => ?_, by simpa using blank⟩
    -- the piece before the blank is none
    obtain ⟨others, rfl⟩ := List.getLast?_eq_some_iff.mp ends
    rw [List.append_assoc] at apart
    simpa [blank] using (List.isChain_cons_cons.mp apart.right).1

theorem isInlineBlank_textOf (regular : ∀ piece ∈ blanks, piece.Regular)
    (blank : ∀ piece ∈ blanks, piece.isWhitespace = true) :
    ∀ c ∈ Piece.textOf blanks, isInlineBlank c = true := by
  intro c member
  obtain ⟨piece, inside, within⟩ := List.mem_flatMap.mp member
  exact (regular piece inside).whitespace (by simpa [Piece.isWhitespace] using blank piece inside) c within

/-- Blanks and what comes after them on their line do not begin with a line break. -/
theorem exists_cons_of_blanks (blank : ∀ piece ∈ blanks, piece.isWhitespace = true)
    (same : next.isNewline = false) (later : List Piece) :
    ∃ first rest, blanks ++ next :: later = first :: rest ∧ first.isNewline = false := by
  cases blanks with
  | nil => exact ⟨next, later, rfl, same⟩
  | cons first others =>
    have white := blank first List.mem_cons_self
    exact ⟨first, others ++ next :: later, rfl, Piece.not_isNewline_of_isWhitespace white⟩

namespace LineStart

theorem isNewline (start : LineStart earlier blanks) : ∀ piece ∈ blanks, piece.isNewline = false :=
  fun piece member => Piece.not_isNewline_of_isWhitespace (start.blank piece member)

/-- A piece that starts its line is indented by the blanks before it. -/
theorem layout (start : LineStart earlier blanks) (apart : BlanksApart blanks)
    (solid : next.isWhitespace = false) (later : List Piece) :
    Layout.startsLine ((earlier ++ blanks ++ next :: later).map Piece.span)
        (earlier ++ blanks).length = true
      ∧ Layout.indentation ((earlier ++ blanks ++ next :: later).map Piece.span)
        (earlier ++ blanks).length = (Piece.textOf blanks).length := by
  have ends : ∀ span ∈ (earlier.map Piece.span).getLast?, span.kind = .newline := by
    simpa [Piece.isNewline] using start.ends
  have unbroken : ∀ span ∈ blanks.map Piece.span, span.kind ≠ .newline := by
    simpa [Piece.isNewline] using start.isNewline
  have size : (earlier ++ blanks).length
      = (earlier.map Piece.span ++ blanks.map Piece.span).length := by simp
  rw [List.append_assoc, List.map_append, List.map_append, size]
  constructor
  · rw [Layout.startsLine, Layout.lineBefore_append ends unbroken, List.all_reverse]
    simpa [Piece.isWhitespace] using start.blank
  · rw [Layout.indentation, Layout.lineStart_append ends unbroken,
      List.getElem?_append_right (Nat.le_refl _), Nat.sub_self]
    rcases apart.eq_nil_or_singleton start.blank with rfl | ⟨blank, rfl⟩
    · have other : next.span.kind ≠ .whitespace := by simpa [Piece.isWhitespace] using solid
      simp [other]
    · have whitespace : blank.span.kind = .whitespace := by
        simpa [Piece.isWhitespace] using start.blank
      simp [whitespace]

/-- Whole lines are written by themselves. -/
theorem lineGroups_append (start : LineStart earlier blanks) (later : List Piece) :
    lineGroups (earlier ++ later) = lineGroups earlier ++ lineGroups later := by
  obtain ⟨groups, line, whole, unbroken, follows⟩ := exists_lineGroups earlier
  have none : line = [] := by
    rcases List.eq_nil_or_concat line with rfl | ⟨body, last, rfl⟩
    · rfl
    · have ends := start.ends last (by rw [whole]; simp)
      simp [unbroken last (by simp)] at ends
  subst none
  have alone := follows []
  rw [List.append_nil] at alone
  rw [follows, alone]
  simp [lineGroups]

/-- A piece that starts its line and is kept is written after the same blanks, at the start of a line. -/
theorem writeLines_eq (start : LineStart earlier blanks)
    (regular : ∀ piece ∈ earlier ++ blanks ++ [next], piece.Regular)
    (content : next.isContent = true) :
    writeLines (earlier ++ blanks ++ [next])
        = writeLines earlier ++ (Piece.textOf blanks ++ next.span.text)
      ∧ ∀ c ∈ (writeLines earlier).getLast?, isLineBreak c = true := by
  rw [List.append_assoc] at regular ⊢
  have unbroken : ∀ piece ∈ blanks ++ [next], piece.isNewline = false := by
    rw [List.forall_mem_append]
    exact ⟨start.isNewline, by simpa using Piece.not_isNewline_of_isContent content⟩
  have kept : ∀ piece ∈ blanks ++ [next], piece.removed = false := by
    rw [List.forall_mem_append]
    refine ⟨fun piece member => ?_, by simpa using Piece.not_removed_of_isContent content⟩
    by_contra removed
    have solid := (regular piece (by simp [member])).removable (by simpa using removed)
    have blank := start.blank piece member
    rw [Piece.isWhitespace] at blank
    simp [Kind.isBlank, blank] at solid
  have cut : lineGroups (earlier ++ (blanks ++ [next])) = lineGroups earlier ++ (blanks ++ [next]) :: [] := by
    rw [start.lineGroups_append, lineGroups_of_unbroken unbroken (by simp)]
  refine ⟨?_, getLast?_lines_before regular cut⟩
  rw [writeLines, cut, List.flatMap_append, List.flatMap_singleton, writeGroup_of_kept kept]
  simp [writeLines, Piece.textOf]

end LineStart

/-- The text of pieces ends as their last piece does, where no line break comes next. -/
theorem isLineBreak_of_getLast? (regular : Regular (earlier ++ piece :: next :: later))
    (solid : piece.isWhitespace = false) (same : next.isNewline = false) {c : Char}
    (last : (Piece.textOf (earlier ++ [piece])).getLast? = some c) :
    isInlineBlank c = false ∧ (isLineBreak c = true → piece.isNewline = true) := by
  have one : piece.Regular := regular.each piece (by simp)
  rw [Piece.textOf_append, Piece.textOf_cons, Piece.textOf_nil, List.append_nil,
    List.getLast?_append_of_ne_nil _ one.nonempty] at last
  cases newline : piece.isNewline with
  | true =>
    have ends := one.newline (by simpa [Piece.isNewline] using newline) c (List.mem_of_getLast? last)
    exact ⟨not_isInlineBlank_of_isLineBreak ends, fun _ => rfl⟩
  | false =>
    have visible : piece.span.kind.isBlank = false := by
      rw [Kind.isBlank, Bool.or_eq_false_iff]
      exact ⟨solid, newline⟩
    -- a line comment would have a line break after it
    have noLine : piece.span.kind ≠ .lineComment := fun line => by
      have ending := (List.isChain_cons_cons.mp regular.comments.right_of_append).1 line
      simp [Piece.isNewline, ending] at same
    have other := one.last visible noLine c last
    rw [isBlankChar, Bool.or_eq_false_iff] at other
    exact ⟨other.1, by simp [other.2]⟩

/-- Where only blanks stand in a scanned text between a line break and a span, the span starts its
line. -/
theorem exists_lineStart (regular : Regular (earlier ++ next :: later))
    (apart : BlanksApart (earlier ++ next :: later)) (solid : next.span.kind.isBlank = false)
    {before between : Text} (text : Piece.textOf earlier = before ++ between)
    (ends : ∀ c ∈ before.getLast?, isLineBreak c = true)
    (blank : ∀ c ∈ between, isInlineBlank c = true) :
    ∃ lines blanks, earlier = lines ++ blanks ∧ LineStart lines blanks
      ∧ Piece.textOf blanks = between := by
  obtain ⟨lines, blanks, rfl, other, all⟩ := apart.left.exists_blanks
  have inline := isInlineBlank_textOf (fun piece member => regular.each piece (by simp [member])) all
  rw [Kind.isBlank, Bool.or_eq_false_iff] at solid
  obtain ⟨first, rest, begins, same⟩ := exists_cons_of_blanks all solid.2 later
  rw [List.append_assoc, begins] at regular
  have final {piece : Piece} (last : piece ∈ lines.getLast?) {c : Char}
      (ending : (Piece.textOf lines).getLast? = some c) :
      isInlineBlank c = false ∧ (isLineBreak c = true → piece.isNewline = true) := by
    have solid := other piece last
    obtain ⟨earlier, rfl⟩ := List.getLast?_eq_some_iff.mp last
    rw [List.append_assoc, List.singleton_append] at regular
    exact isLineBreak_of_getLast? regular solid same ending
  have visible : ∀ c ∈ (Piece.textOf lines).getLast?, isInlineBlank c = false := by
    intro c ending
    cases last : lines.getLast? with
    | none => simp [List.getLast?_eq_none_iff.mp last] at ending
    | some piece => exact (final last ending).1
  -- so the same blanks come at the end, and before them the same line break
  rw [Piece.textOf_append] at text
  obtain ⟨rfl, rfl⟩ := append_inj_of_ends inline blank visible
    (fun c ending => not_isInlineBlank_of_isLineBreak (ends c ending)) text
  refine ⟨lines, blanks, rfl, ⟨fun piece last => ?_, all⟩, rfl⟩
  obtain ⟨earlier, rfl⟩ := List.getLast?_eq_some_iff.mp last
  have nonempty : Piece.textOf (earlier ++ [piece]) ≠ [] := by
    simp [(regular.each piece (by simp)).nonempty]
  have ending := List.getLast?_eq_some_getLast nonempty
  exact (final last ending).2 (ends _ ending)

section Scanned

variable {language : Language} {source : Text} {front back : List Span} {found : Span}

/-- The spans of a text space the texts of those that are not blank. -/
theorem spaced_of_spans (known : language ∈ Language.registered)
    (scanned : language.spans source = .ok (front ++ back)) :
    Spaced ((Token.contents (front.map Span.token)).map Token.text)
      (Token.textOf (front.map Span.token)) := by
  refine spaced_textOf ?_
  rw [List.forall_mem_map]
  intro span member blank
  have inside : span ∈ (markRemoved (front ++ back) []).map Piece.span := by
    rw [map_span_markRemoved]
    exact List.mem_append_left _ member
  obtain ⟨piece, there, rfl⟩ := List.mem_map.mp inside
  exact ((unmarked_edit known scanned).regular.each piece there).isBlankChar_of_blank blank

/-- Where only blanks stand between a line break and a span, they are the indentation of the span. -/
theorem indentation_of_text (known : language ∈ Language.registered)
    (scanned : language.spans source = .ok (front ++ found :: back))
    (solid : found.kind.isBlank = false) {before between : Text}
    (text : Token.textOf (front.map Span.token) = before ++ between)
    (ends : ∀ c ∈ before.getLast?, isLineBreak c = true)
    (blank : ∀ c ∈ between, isInlineBlank c = true) :
    Layout.startsLine (front ++ found :: back) front.length = true
      ∧ Layout.indentation (front ++ found :: back) front.length = between.length := by
  have edit := unmarked_edit known scanned
  obtain ⟨first, rest, pieces, rfl, onward⟩ :=
    List.map_eq_append_iff.mp (map_span_markRemoved (front ++ found :: back) [])
  obtain ⟨piece, more, rfl, rfl, rfl⟩ := List.map_eq_cons_iff.mp onward
  rw [pieces] at edit
  have firstText : Piece.textOf first = before ++ between := by
    rw [← text, Token.textOf_map_token]
    exact (List.flatMap_map ..).symm
  obtain ⟨lines, blanks, rfl, start, rfl⟩ :=
    exists_lineStart edit.regular edit.blanks_apart solid firstText ends blank
  rw [Kind.isBlank, Bool.or_eq_false_iff] at solid
  have layout := start.layout edit.blanks_apart.left.right solid.1 more
  rwa [List.map_append, List.map_cons, ← List.length_map (f := Piece.span)] at layout

end Scanned

section Rewritten

variable {language : Language} {source : Text}

/-- The kept tokens are found among spans in their order. -/
theorem exists_split_of_contents {spans : List Span} {first second : List Token} {token : Token}
    (same : Token.contents (spans.map Span.token) = first ++ token :: second) :
    ∃ before found after, spans = before ++ found :: after ∧ found.token = token
      ∧ Token.contents (before.map Span.token) = first
      ∧ Token.contents (after.map Span.token) = second := by
  induction spans generalizing first with
  | nil => simp at same
  | cons span rest ih =>
    rw [List.map_cons, Token.contents_cons] at same
    split at same
    next blank =>
      obtain ⟨before, found, after, rfl, here, front, back⟩ := ih same
      refine ⟨span :: before, found, after, rfl, here, ?_, back⟩
      rw [List.map_cons, Token.contents_cons, if_pos blank, front]
    next solid =>
      cases first with
      | nil =>
        obtain ⟨here, back⟩ := List.cons.inj same
        exact ⟨[], span, rest, rfl, here, rfl, back⟩
      | cons known others =>
        obtain ⟨rfl, onward⟩ := List.cons.inj same
        obtain ⟨before, found, after, rfl, here, front, back⟩ := ih onward
        refine ⟨span :: before, found, after, rfl, here, ?_, back⟩
        rw [List.map_cons, Token.contents_cons, if_neg solid, front]

/-- What is written before a kept piece that starts its line. -/
theorem LineStart.spaced (start : LineStart earlier blanks)
    (regular : Regular (earlier ++ blanks ++ next :: later)) (content : next.isContent = true) :
    writeLines (earlier ++ blanks ++ next :: later)
        = (writeLines earlier ++ Piece.textOf blanks)
          ++ (next.span.text ++ writtenAfter (earlier ++ blanks) next later)
      ∧ Spaced ((Piece.contents (earlier ++ blanks)).map Token.text)
        (writeLines earlier ++ Piece.textOf blanks)
      ∧ ∀ c ∈ (writeLines earlier).getLast?, isLineBreak c = true := by
  have upTo : ∀ piece ∈ earlier ++ blanks ++ [next], piece.Regular := by
    rw [List.append_cons] at regular
    exact regular.left.each
  obtain ⟨written, ends⟩ := start.writeLines_eq upTo content
  have text := writeLines_append (earlier ++ blanks) content regular.right
  rw [written, ← List.append_assoc (writeLines earlier), List.append_assoc _ next.span.text] at text
  refine ⟨text, ?_, ends⟩
  obtain ⟨before, after, split, spaced, rfl, -⟩ := (woven_writeLines regular).split content
  rw [List.nil_append, text, List.append_cancel_right_eq] at split
  exact split ▸ spaced

/-- A kept token that starts its line starts it in the rewritten text too, after the same kept tokens,
with the same indentation. -/
theorem LineStart.indentation_eq (start : LineStart earlier blanks)
    (known : language ∈ Language.registered)
    (edit : language.Edit source (earlier ++ blanks ++ next :: later))
    (content : next.isContent = true) {before after : List Span} {found : Span}
    (scanned : language.spans (writeLines (earlier ++ blanks ++ next :: later))
      = .ok (before ++ found :: after))
    (token : found.token = next.span.token)
    (contents : Token.contents (before.map Span.token) = Piece.contents (earlier ++ blanks)) :
    Layout.startsLine (before ++ found :: after) before.length = true
      ∧ Layout.indentation (before ++ found :: after) before.length
        = Layout.indentation ((earlier ++ blanks ++ next :: later).map Piece.span)
          (earlier ++ blanks).length := by
  have regular := edit.regular
  obtain ⟨text, spaced, ends⟩ := start.spaced regular content
  -- the same text stands before the same word, as it has the same words
  have made := (Language.partition_of_spans scanned).text
  have foundText : found.text = next.span.text := congrArg Token.text token
  rw [text, List.flatMap_append, List.flatMap_cons, foundText, ← Token.textOf_map_token before] at made
  have befores := spaced_of_spans known scanned
  rw [contents] at befores
  have before_text := befores.append_inj (regular.solid_upTo content) spaced made
  have solid : found.kind.isBlank = false := by
    rw [show found.kind = next.span.kind from congrArg Token.kind token]
    exact Piece.not_isBlank_of_isContent content
  have inline := isInlineBlank_textOf (fun piece member => regular.each piece (by simp [member]))
    start.blank
  obtain ⟨starts, indentation⟩ := indentation_of_text known scanned solid before_text ends inline
  have indented := start.layout edit.blanks_apart.left.right
    (Piece.not_isWhitespace_of_isContent content) later
  exact ⟨starts, indentation.trans indented.2.symm⟩

end Rewritten

end CommentStrip
