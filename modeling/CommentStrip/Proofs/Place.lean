import CommentStrip.Proofs.Edit
import CommentStrip.Proofs.Numbering

/-!
# Places in a text

The place where a scan stands is that of the text before it, read as a whole: its line counts the
lines that end there, its column the characters since the last line break. A scan measures its
lexemes one by one, and a carriage return with the line feed after it would be measured as two line
ends if a lexeme could end between them. None does.
-/
namespace CommentStrip

namespace Text

/-- The characters after the last line break of a text. -/
def lastLine (text : Text) : Text :=
  (text.reverse.takeWhile (!isLineBreak ·)).reverse

theorem lastLine_of_unbroken {text : Text} (unbroken : ∀ c ∈ text, isLineBreak c = false) :
    lastLine text = text := by
  have all : ∀ c ∈ text.reverse, (!isLineBreak c) = true := by simpa using unbroken
  rw [lastLine, List.takeWhile_eq_self_iff.mpr all, List.reverse_reverse]

theorem lastLine_append {text : Text} (broken : ∃ c ∈ text, isLineBreak c = true) (earlier : Text) :
    lastLine (earlier ++ text) = lastLine text := by
  have stops : ¬∀ c ∈ text.reverse, (!isLineBreak c) = true := by simpa using broken
  rw [lastLine, List.reverse_append, List.takeWhile_append, if_neg]
  · rfl
  · rw [← List.takeWhile_eq_self_iff] at stops
    exact fun same => stops ((List.takeWhile_prefix _).eq_of_length same)

/-- Whether the character at an index ends a line: a line feed, or a carriage return that no line
feed follows in the text. -/
def breaksAt (text : Text) (index : Nat) : Bool :=
  text[index]? == some '\n' || text[index]? == some '\r' && text[index + 1]? != some '\n'

/-- The indices of the line breaks among the first `count` characters of a text. -/
def breaksBefore (text : Text) (count : Nat) : List Nat :=
  (List.range count).filter text.breaksAt

/-- How many of the first `count` characters of a text come after the last line break among them. -/
def sinceBreak (text : Text) (count : Nat) : Nat :=
  match (text.breaksBefore count).getLast? with
  | some index => count - (index + 1)
  | none => count

theorem breaksBefore_cons (c : Char) (text : Text) (count : Nat) :
    breaksBefore (c :: text) (count + 1)
      = (if c = '\n' ∨ c = '\r' ∧ text.head? ≠ some '\n' then [0] else [])
        ++ (text.breaksBefore count).map (· + 1) := by
  have first : breaksAt (c :: text) 0 = true ↔ c = '\n' ∨ c = '\r' ∧ text.head? ≠ some '\n' := by
    simp [breaksAt, List.head?_eq_getElem?]
  have later : breaksAt (c :: text) ∘ (· + 1) = text.breaksAt := by
    funext index
    simp [breaksAt]
  rw [breaksBefore, List.range_succ_eq_map, List.filter_cons, List.filter_map]
  simp only [first, later, breaksBefore]
  split <;> rfl

theorem lt_of_mem_breaksBefore {text : Text} {count index : Nat}
    (member : index ∈ text.breaksBefore count) : index < count :=
  List.mem_range.mp (List.mem_filter.mp member).1

theorem add_sinceBreak (text : Text) (count : Nat) :
    1 + text.sinceBreak count
      = match (text.breaksBefore count).getLast? with
        | some index => count - index
        | none => 1 + count := by
  rw [sinceBreak]
  cases last : (text.breaksBefore count).getLast? with
  | none => rfl
  | some index =>
    have below := lt_of_mem_breaksBefore (List.mem_of_getLast? last)
    change 1 + (count - (index + 1)) = count - index
    omega

end Text

namespace Position

/-- The column after a text counts the characters since its last line break, or goes on counting if
there is none. -/
theorem column_after (place : Position) (text : Text) :
    (place.after text).column
      = if text.any isLineBreak then 1 + text.lastLine.length else place.column + text.length := by
  induction text generalizing place with
  | nil => rfl
  | cons c rest ih =>
    by_cases later : rest.any isLineBreak = true
    · -- a later line break decides
      have broken : ∃ d ∈ rest, isLineBreak d = true := by simpa using later
      have last := Text.lastLine_append broken [c]
      rw [List.singleton_append] at last
      simp only [after, apply_ite Position.column, ih, later, if_true, List.any_cons, Bool.or_true,
        last, ite_self]
    · have unbroken : ∀ d ∈ rest, isLineBreak d = false := by simpa using later
      -- no line feed follows, so a carriage return ends the line itself
      have noFeed : rest.head? ≠ some '\n' := by
        intro feed
        exact absurd (unbroken '\n' (List.mem_of_head? feed)) (by decide)
      have ends : (c = '\n' ∨ c = '\r' ∧ rest.head? ≠ some '\n') ↔ isLineBreak c = true := by
        simp [isLineBreak, noFeed]
      simp only [after, apply_ite Position.column, ih, later, ends, List.any_cons, Bool.or_false,
        Bool.false_eq_true, if_false, List.length_cons]
      split
      next lineBreak =>
        have last : Text.lastLine (c :: rest) = rest := by
          have stops : (c :: rest).reverse.takeWhile (!isLineBreak ·) = rest.reverse := by
            rw [List.reverse_cons, List.takeWhile_append_of_pos (by simpa using unbroken)]
            simp [lineBreak]
          rw [Text.lastLine, stops, List.reverse_reverse]
        rw [last]
      · omega

/-- The line and the column after the first part of a text, by the line breaks of the whole text in
this part. -/
theorem after_eq_of_breaks {before rest : Text} (whole : ¬Text.CutsLineBreak before rest)
    (place : Position) :
    (place.after before).line
        = place.line + (Text.breaksBefore (before ++ rest) before.length).length
      ∧ (place.after before).column
        = match (Text.breaksBefore (before ++ rest) before.length).getLast? with
          | some index => before.length - index
          | none => place.column + before.length := by
  induction before generalizing place with
  | nil => exact ⟨rfl, rfl⟩
  | cons c more ih =>
    have onward := ih (Text.not_cutsLineBreak_tail whole)
    rw [List.cons_append, List.length_cons, Text.breaksBefore_cons, List.getLast?_append,
      List.getLast?_map]
    simp only [Text.endsLine_append whole, after]
    generalize Text.breaksBefore (more ++ rest) more.length = breaks at onward ⊢
    by_cases ends : c = '\n' ∨ c = '\r' ∧ more.head? ≠ some '\n'
    · obtain ⟨line, column⟩ := onward ⟨place.offset + c.utf8Size, place.line + 1, 1⟩
      rw [if_pos ends, if_pos ends, line, column]
      refine ⟨?_, ?_⟩
      · simp only [List.length_append, List.length_singleton, List.length_map]
        omega
      · cases breaks.getLast? <;> simp [Nat.add_comm]
    · obtain ⟨line, column⟩ := onward ⟨place.offset + c.utf8Size, place.line, place.column + 1⟩
      rw [if_neg ends, if_neg ends, line, column]
      refine ⟨by simp, ?_⟩
      cases breaks.getLast? with
      | some index => simp
      | none =>
        change place.column + 1 + more.length = place.column + (more.length + 1)
        omega

/-- The place after a text from its start, by what is counted there. -/
theorem start_after (text : Text) :
    start.after text = ⟨text.byteLength, 1 + text.lineEnds, 1 + text.lastLine.length⟩ := by
  have offset := offset_after start text
  have line := line_after start text
  have column := column_after start text
  have unbroken : ¬text.any isLineBreak = true → text.lastLine = text := by
    intro none
    exact Text.lastLine_of_unbroken (by simpa using none)
  cases place : start.after text with
  | mk _ _ _ =>
    rw [place] at offset line column
    simp only [start, Nat.zero_add] at offset line column
    rw [Position.mk.injEq]
    refine ⟨offset, line, column.trans ?_⟩
    split
    · rfl
    next none => rw [unbroken none]

end Position

namespace Language

variable {language : Language} {point : Point}

/-- No lexeme ends inside a line break. -/
theorem ReadsAt.not_cutsLineBreak (conventional : language.Conventional) {kind : Kind}
    {word rest : Text} (reads : language.ReadsAt point ⟨kind, word⟩ rest) :
    ¬Text.CutsLineBreak word rest := by
  rintro ⟨carriage, feed⟩
  have last := List.mem_of_getLast? carriage
  cases kind with
  | newline =>
    rcases reads.newline_shape with rfl | rfl | ⟨-, single⟩
    · simp at carriage
    · simp at carriage
    · exact single feed
  | whitespace => exact absurd (reads.whitespace _ last) (by decide)
  | lineComment =>
    obtain ⟨marker, known, body, rfl, unbroken, -⟩ := reads.line
    rcases List.mem_append.mp last with inMarker | inBody
    · rcases conventional.markers marker known with rfl | rfl <;> simp at inMarker
    · exact absurd (unbroken _ inBody) (by decide)
  | code | stringLiteral | blockComment =>
    exact absurd (reads.last conventional rfl nofun _ carriage) (by decide)

/-- After tokens that are read, the scan stands at the place of their text as a whole. -/
theorem Reads.position (conventional : language.Conventional) {tokens : List Token} {rest : Text}
    (reads : language.Reads point tokens rest) :
    (point.pastAll tokens).cursor.position = point.cursor.position.after (Token.textOf tokens) := by
  induction tokens generalizing point with
  | nil => rfl
  | cons token more ih =>
    have whole : ¬Text.CutsLineBreak token.text (Token.textOf more) := by
      rintro ⟨last, head⟩
      refine reads.1.not_cutsLineBreak conventional ⟨last, ?_⟩
      rw [List.head?_append, head]
      rfl
    rw [Point.pastAll_cons, ih reads.2, Token.textOf_cons, Position.after_append whole]
    rfl

namespace Edit

variable {source : Text} {pieces earlier later : List Piece} {piece : Piece}

/-- No line break is cut between pieces. -/
theorem not_cutsLineBreak (edit : language.Edit source pieces) (split : pieces = earlier ++ later) :
    ¬Text.CutsLineBreak (Piece.textOf earlier) (Piece.textOf later) := by
  rintro ⟨carriage, feed⟩
  cases earlier using List.reverseRecOn with
  | nil => simp at carriage
  | append_singleton before last =>
    rw [List.append_assoc, List.singleton_append] at split
    -- a cut after the last piece would be one after the last lexeme it was read as
    obtain ⟨-, point, word, reads, same⟩ := edit.exists_lexemes split
    rw [Piece.getLast?_textOf_concat (edit.text_ne_nil (by simp [split]))] at carriage
    exact reads.not_cutsLineBreak edit.conventional ⟨same.trans carriage, feed⟩

/-- The lines that end in pieces are those that end in their text. -/
theorem lineEnds_textOf (edit : language.Edit source pieces) (split : pieces = earlier ++ later) :
    Text.lineEnds (Piece.textOf earlier) = Token.lineEnds (earlier.map (·.span.token)) := by
  induction earlier using List.reverseRecOn generalizing later with
  | nil => rfl
  | append_singleton before last ih =>
    rw [List.append_assoc, List.singleton_append] at split
    have whole : ¬Text.CutsLineBreak (Piece.textOf before) last.span.text := by
      rintro ⟨carriage, feed⟩
      refine edit.not_cutsLineBreak split ⟨carriage, ?_⟩
      rw [Piece.textOf_cons, List.head?_append, feed]
      rfl
    rw [Piece.textOf_append, Piece.textOf_cons, Piece.textOf_nil, List.append_nil,
      Text.lineEnds_append whole, ih split, List.map_append, Token.lineEnds_append]
    simp [Span.token]

/-- A piece starts on the line that the line breaks of the source before it lead to. -/
theorem line_eq (edit : language.Edit source pieces) (split : pieces = earlier ++ piece :: later) :
    piece.span.line = 1 + Text.lineEnds (Piece.textOf earlier) := by
  have scanned := edit.scanned
  rw [split, List.map_append, List.map_cons] at scanned
  rw [line_of_spans scanned, edit.lineEnds_textOf split, List.map_map]
  rfl

end Edit

variable {source : Text} {spans earlier later : List Span} {span : Span}

/-- Where two spans meet, no line break is cut. -/
theorem not_cutsLineBreak_of_spans (known : language ∈ registered)
    (scanned : language.spans source = .ok (earlier ++ later)) :
    ¬Text.CutsLineBreak (earlier.flatMap Span.text) (later.flatMap Span.text) := by
  have edit := edit_of_spans known scanned
  rw [List.map_append] at edit
  simpa only [Piece.textOf_map_kept] using edit.not_cutsLineBreak rfl

/-- A span starts at the place of the text before it. -/
theorem place_of_spans (known : language ∈ registered)
    (scanned : language.spans source = .ok (earlier ++ span :: later)) :
    span.place = Position.start.after (earlier.flatMap Span.text) := by
  refine (placed_of_spans scanned).place_eq ?_
  rintro first one second rfl ⟨carriage, feed⟩
  have nonempty : one.text ≠ [] := text_ne_nil_of_spans scanned (by simp)
  -- a cut after this span would be one after all the spans up to it
  rw [List.append_assoc, List.cons_append, List.append_cons] at scanned
  refine not_cutsLineBreak_of_spans known scanned ⟨?_, ?_⟩
  · rw [List.flatMap_append, List.flatMap_singleton, List.getLast?_append_of_ne_nil _ nonempty,
      carriage]
  · rw [List.flatMap_append, List.head?_append, feed]
    rfl

/--
The line of a span counts the line breaks of the source before it, its column the characters after
the last of these, and neither end of a span lies inside a line break.
-/
theorem span_place_of_breaks (known : language ∈ registered)
    (scanned : language.spans source = .ok spans) (member : span ∈ spans) :
    ∃ before after : Text, source = before ++ (span.text ++ after)
      ∧ span.start = before.byteLength
      ∧ span.stop = Text.byteLength (before ++ span.text)
      ∧ span.line = 1 + (source.breaksBefore before.length).length
      ∧ span.column = 1 + source.sinceBreak before.length
      ∧ ¬Text.CutsLineBreak before (span.text ++ after)
      ∧ ¬Text.CutsLineBreak (before ++ span.text) after := by
  obtain ⟨earlier, later, rfl⟩ := List.append_of_mem member
  have text := text_of_spans scanned
  have place := place_of_spans known scanned
  have starts := not_cutsLineBreak_of_spans known scanned
  have stops : ¬Text.CutsLineBreak ((earlier ++ [span]).flatMap Span.text)
      (later.flatMap Span.text) := by
    rw [List.append_cons] at scanned
    exact not_cutsLineBreak_of_spans known scanned
  rw [List.flatMap_append, List.flatMap_singleton] at stops
  rw [List.flatMap_cons] at starts
  have start : span.start = Text.byteLength (earlier.flatMap Span.text) := by
    have offset := congrArg Position.offset place
    rwa [Position.offset_after, Position.start, Nat.zero_add] at offset
  obtain ⟨line, column⟩ := Position.after_eq_of_breaks starts .start
  rw [← place, ← text] at line column
  refine ⟨_, _, text, start, ?_, line, ?_, starts, stops⟩
  · have measured := (partition_of_spans scanned).measured span member
    rw [Text.byteLength_append]
    omega
  · rw [Text.add_sinceBreak]
    exact column

/-- A line break of two characters inside a literal, and a carriage return alone after it. -/
theorem span_place_after_literal :
    ∃ spans, ∃ span ∈ spans, python.spans "'''é\r\n'''\r x".toList = .ok spans
      ∧ span.text = "x".toList ∧ span.line = 3 ∧ span.column = 2
      ∧ ∃ before after : Text, "'''é\r\n'''\r x".toList = before ++ (span.text ++ after)
        ∧ span.start = before.byteLength
        ∧ span.stop = Text.byteLength (before ++ span.text)
        ∧ span.line = 1 + (Text.breaksBefore "'''é\r\n'''\r x".toList before.length).length
        ∧ span.column = 1 + Text.sinceBreak "'''é\r\n'''\r x".toList before.length
        ∧ ¬Text.CutsLineBreak before (span.text ++ after)
        ∧ ¬Text.CutsLineBreak (before ++ span.text) after := by
  have scanned : python.spans "'''é\r\n'''\r x".toList
      = .ok [⟨.stringLiteral, 0, 10, 1, 1, "'''é\r\n'''".toList⟩,
        ⟨.newline, 10, 11, 2, 4, "\r".toList⟩, ⟨.whitespace, 11, 12, 3, 1, " ".toList⟩,
        ⟨.code, 12, 13, 3, 2, "x".toList⟩] := by
    rw [spans_eq_lexWithin]
    decide +kernel
  have known : python ∈ registered := by simp [registered]
  exact ⟨_, ⟨.code, 12, 13, 3, 2, "x".toList⟩, by simp, scanned, rfl, rfl, rfl,
    span_place_of_breaks known scanned (by simp)⟩

end Language

end CommentStrip
