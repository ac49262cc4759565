import CommentStrip.Proofs.Directives
import CommentStrip.Proofs.Shape

/-!
# Lines that may declare the encoding

A line comment declares the encoding only if fewer than two lines before its own are ones on which
something other than a blank starts. These are the lines before it that hold text, except for those
that are taken up by a string literal or a block comment from an earlier line: such a line is passed
over unless something else starts on it.
-/
namespace CommentStrip

/-- Something other than white space stands on the line with this number. -/
def Text.HoldsText (text : Text) (line : Nat) : Prop :=
  ∃ index c, text[index]? = some c ∧ Unicode.isWhiteSpace c = false
    ∧ line = 1 + (text.breaksBefore index).length

namespace Span

/-- A span that is not blank starts on the line. -/
def BeginOn (spans : List Span) (line : Nat) : Prop :=
  ∃ span ∈ spans, span.kind.isBlank = false ∧ span.line = line

/-- A string literal or a block comment from an earlier line goes on to this line. -/
structure Reaches (span : Span) (line : Nat) : Prop where
  kind : span.kind = .stringLiteral ∨ span.kind = .blockComment
  later : span.line < line
  within : line ≤ span.line + span.text.lineEnds

end Span

section Lists

/-- Two numbers of a sorted list stand in it in their order. -/
private theorem pair_sublist_of_lt {items : List Nat} {one two : Nat}
    (sorted : items.Pairwise (· ≤ ·)) (first : one ∈ items) (second : two ∈ items)
    (less : one < two) : [one, two].Sublist items := by
  obtain ⟨before, after, rfl⟩ := List.append_of_mem first
  have ordered := (List.pairwise_append.mp sorted).2.2
  rcases List.mem_append.mp second with early | late
  · have := ordered two early one List.mem_cons_self
    omega
  · have later : two ∈ after := (List.mem_cons.mp late).resolve_left (by omega)
    obtain ⟨between, rest, rfl⟩ := List.append_of_mem later
    exact pair_sublist_iff.mpr ⟨before, between, rest, rfl⟩

/-- A character of a concatenation stands in one of its parts. -/
private theorem exists_split_of_flatMap {spans : List Span} {index : Nat} {c : Char}
    (found : (spans.flatMap Span.text)[index]? = some c) :
    ∃ earlier span later front back, spans = earlier ++ span :: later
      ∧ span.text = front ++ c :: back
      ∧ index = (earlier.flatMap Span.text ++ front).length := by
  induction spans generalizing index with
  | nil => simp at found
  | cons span rest ih =>
    rw [List.flatMap_cons] at found
    by_cases inside : index < span.text.length
    · rw [List.getElem?_append_left inside] at found
      refine ⟨[], span, rest, span.text.take index, span.text.drop (index + 1), rfl, ?_, ?_⟩
      · obtain ⟨bound, rfl⟩ := List.getElem?_eq_some_iff.mp found
        rw [List.getElem_cons_drop, List.take_append_drop]
      · rw [List.flatMap_nil, List.nil_append, List.length_take]
        omega
    · rw [List.getElem?_append_right (by omega)] at found
      obtain ⟨earlier, other, later, front, back, rfl, whole, place⟩ := ih found
      refine ⟨span :: earlier, other, later, front, back, rfl, whole, ?_⟩
      rw [List.flatMap_cons, List.append_assoc, List.length_append, ← place]
      omega

end Lists

section Lines

variable {language : Language} {source front back : Text} {spans earlier later : List Span}
  {span : Span} {c : Char} {line : Nat}

/-- The line of a character counts on from the line on which its span starts. -/
private theorem line_of_character (known : language ∈ Language.registered)
    (scanned : language.spans source = .ok (earlier ++ span :: later))
    (whole : span.text = front ++ c :: back) (other : c ≠ '\n') :
    1 + (source.breaksBefore (earlier.flatMap Span.text ++ front).length).length
      = span.line + front.lineEnds := by
  have text := Language.text_of_spans scanned
  have place := congrArg Position.line (Language.place_of_spans known scanned)
  have edges := Language.not_cutsLineBreak_of_spans known scanned
  have split : source = (earlier.flatMap Span.text ++ front)
      ++ (c :: back ++ later.flatMap Span.text) := by
    rw [text, whole]
    simp
  have uncut : ¬Text.CutsLineBreak (earlier.flatMap Span.text ++ front)
      (c :: back ++ later.flatMap Span.text) := by
    rintro ⟨-, feed⟩
    exact other (Option.some.inj feed)
  have inside : ¬Text.CutsLineBreak (earlier.flatMap Span.text) front := by
    rintro ⟨carriage, feed⟩
    refine edges ⟨carriage, ?_⟩
    rw [List.flatMap_cons, whole, List.append_assoc, List.head?_append, feed]
    rfl
  obtain ⟨counted, -⟩ := Position.after_eq_of_breaks uncut .start
  rw [← split, Position.line_after, Text.lineEnds_append inside] at counted
  rw [Span.place, Position.line_after] at place
  simp only [Position.start] at counted place
  omega

/-- Of the spans with something to be seen, only string literals and block comments hold line
breaks. -/
private theorem kind_of_broken (known : language ∈ Language.registered)
    (scanned : language.spans source = .ok (earlier ++ span :: later))
    (seen : c ∈ span.text ∧ Unicode.isWhiteSpace c = false)
    (broken : ∃ d ∈ span.text, isLineBreak d = true) :
    span.kind = .stringLiteral ∨ span.kind = .blockComment := by
  have shaped := (Language.edit_of_spans known scanned).shaped (List.map_append ..)
  obtain ⟨d, member, lineBreak⟩ := broken
  have solid : isBlankChar c = false := by
    by_contra blank
    rw [Bool.not_eq_false] at blank
    simp [isWhiteSpace_of_isBlankChar blank] at seen
  rw [isBlankChar, Bool.or_eq_false_iff] at solid
  change Language.Shaped _ _ _ _ span.kind span.text at shaped
  generalize span.kind = kind at shaped ⊢
  generalize span.text = text at *
  cases shaped with
  | quoted | regex => exact .inl rfl
  | blockComment => exact .inr rfl
  | newline shape =>
    have all : ∀ e ∈ text, isLineBreak e = true := by
      rcases shape with rfl | rfl | rfl <;> simp [isLineBreak]
    simp [all c seen.1] at solid
  | whitespace nonempty blank => simp [blank c seen.1] at solid
  | lineComment marker unbroken => simp [unbroken d member] at lineBreak
  | code plain => simp [(plain d member).2] at lineBreak

/-- A line that holds text is one on which a span starts, or a literal or block comment goes on to
it. -/
theorem beginOn_or_reaches (known : language ∈ Language.registered)
    (scanned : language.spans source = .ok spans) (holds : source.HoldsText line) :
    Span.BeginOn spans line ∨ ∃ span ∈ spans, span.Reaches line := by
  obtain ⟨index, c, found, solid, rfl⟩ := holds
  rw [← (Language.partition_of_spans scanned).text] at found
  obtain ⟨earlier, span, later, front, back, rfl, whole, rfl⟩ := exists_split_of_flatMap found
  have member : span ∈ earlier ++ span :: later := by simp
  have inText : c ∈ span.text := by simp [whole]
  have other : c ≠ '\n' := by
    rintro rfl
    exact absurd solid (by decide)
  rw [line_of_character known scanned whole other]
  by_cases first : Text.lineEnds front = 0
  · left
    refine ⟨span, member, ?_, by rw [first, Nat.add_zero]⟩
    by_contra blank
    rw [Bool.not_eq_false] at blank
    have regular := (Language.edit_of_spans known scanned).regular.each (.kept span)
      (List.mem_map_of_mem member)
    have space := isWhiteSpace_of_isBlankChar (regular.isBlankChar_of_blank blank c inText)
    simp [space] at solid
  · right
    -- a line ends in the span before the character
    have broken : ∃ d ∈ span.text, isLineBreak d = true := by
      by_contra unbroken
      refine first (Text.lineEnds_eq_zero.mpr fun d inFront => ?_)
      by_contra lineBreak
      exact unbroken ⟨d, by rw [whole]; exact List.mem_append_left _ inFront, by simpa using lineBreak⟩
    have uncut : ¬Text.CutsLineBreak front (c :: back) := fun cut => other (Option.some.inj cut.2)
    refine ⟨span, member, kind_of_broken known scanned ⟨inText, solid⟩ broken, by omega, ?_⟩
    rw [whole, Text.lineEnds_append uncut]
    omega

/-- A span is on one of the header lines unless spans that are not blank start on two lines before
it. -/
theorem mem_headerLines_iff_beginOn (scanned : language.spans source = .ok spans)
    (member : span ∈ spans) (solid : span.kind.isBlank = false) :
    span.line ∈ headerLines spans
      ↔ ¬∃ first second, first < second ∧ second < span.line ∧ Span.BeginOn spans first
        ∧ Span.BeginOn spans second := by
  obtain ⟨earlier, later, rfl⟩ := List.append_of_mem member
  rw [Language.mem_headerLines_iff scanned solid, Language.pastHeader_iff scanned, not_iff_not]
  have sorted := Language.sorted_of_spans scanned
  -- a span on an earlier line comes earlier
  have before {number : Nat} (begins : Span.BeginOn (earlier ++ span :: later) number)
      (less : number < span.line) :
      number ∈ (earlier.filter (!·.kind.isBlank)).map Span.line := by
    obtain ⟨one, inside, kept, rfl⟩ := begins
    refine List.mem_map_of_mem (List.mem_filter.mpr ⟨?_, by simp [kept]⟩)
    rw [List.map_append, List.map_cons] at sorted
    rcases List.mem_append.mp inside with early | late
    · exact early
    · exfalso
      have ordered := (List.pairwise_cons.mp (List.pairwise_append.mp sorted).2.1).1
      rcases List.mem_cons.mp late with rfl | after
      · omega
      · have := ordered one.line (List.mem_map_of_mem after)
        omega
  have begins {number : Nat}
      (inside : number ∈ (earlier.filter (!·.kind.isBlank)).map Span.line) :
      Span.BeginOn (earlier ++ span :: later) number := by
    obtain ⟨one, kept, rfl⟩ := List.mem_map.mp inside
    obtain ⟨early, solid⟩ := List.mem_filter.mp kept
    exact ⟨one, List.mem_append_left _ early, by simpa using solid, rfl⟩
  constructor
  · rintro ⟨one, two, pair, grows, less⟩
    exact ⟨one, two, grows, less, begins (pair.subset (by simp)), begins (pair.subset (by simp))⟩
  · rintro ⟨one, two, grows, less, first, second⟩
    refine ⟨one, two, pair_sublist_of_lt ?_ (before first (by omega)) (before second less) grows,
      grows, less⟩
    refine sorted.sublist (List.Sublist.map _ ?_)
    exact List.filter_sublist.trans (List.sublist_append_left _ _)

end Lines

/-- Only the interpreter directive comes before the declaration of an encoding among the reasons. -/
theorem DecisionContext.commentFor_encoding_iff {context : DecisionContext} {index : Nat}
    {span : Span} :
    (context.commentFor index span).verdict = .keep
        ∧ (context.commentFor index span).reason = .encodingDirective
      ↔ isInterpreterDirective span = false ∧ context.isEncodingDirective span = true := by
  rw [commentFor, decisionFor, reasonToKeep?]
  by_cases interpreter : isInterpreterDirective span = true
  · simp [interpreter, Decision.keep]
  by_cases encoding : context.isEncodingDirective span = true
  · simp [interpreter, encoding, Decision.keep]
  rw [if_neg interpreter, if_neg encoding]
  refine iff_of_false ?_ (fun both => encoding both.2)
  split_ifs <;> simp [Decision.keep, Decision.remove]

section Window

variable {language : Language} {options : Options} {source : Text} {analysis : Analysis}
  {comment : Comment}

/--
A line comment declares the encoding, and names no interpreter, exactly if it says so and fewer than
two lines before its own are ones on which something other than a blank starts. So no comment does
after two lines that hold text, if something starts on every line before it that holds text and that a
literal or a block comment goes on to.
-/
theorem encoding_declared_in_header (known : language ∈ Language.registered)
    (analyzed : analyze language options source = .ok analysis)
    (listed : comment ∈ analysis.comments) (line : comment.span.kind = .lineComment) :
    (comment.verdict = .keep ∧ comment.reason = .encodingDirective
      ↔ DecisionContext.isInterpreterDirective comment.span = false
        ∧ declaresEncoding comment.span.text = true
        ∧ ¬∃ first second, first < second ∧ second < comment.span.line
          ∧ Span.BeginOn analysis.spans first ∧ Span.BeginOn analysis.spans second)
      ∧ ((∀ number < comment.span.line, source.HoldsText number →
          (∃ span ∈ analysis.spans, span.Reaches number) → Span.BeginOn analysis.spans number) →
        ∀ first second, first < second → second < comment.span.line → source.HoldsText first →
          source.HoldsText second →
          ¬(comment.verdict = .keep ∧ comment.reason = .encodingDirective)) := by
  obtain ⟨scanned, -⟩ := Analysis.eq_of_analyze analyzed
  rw [Analysis.comments_eq analyzed] at listed
  obtain ⟨⟨span, index⟩, entry, rfl⟩ := List.mem_map.mp listed
  have member : span ∈ analysis.spans :=
    List.mem_of_getElem? (List.mem_zipIdx_iff_getElem?.mp (List.mem_of_mem_filter entry))
  change span.kind = .lineComment at line
  have header := mem_headerLines_iff_beginOn scanned member (by simp [line, Kind.isBlank])
  have law := @DecisionContext.commentFor_encoding_iff analysis.context index span
  rw [DecisionContext.isEncodingDirective, line, beq_self_eq_true, Bool.true_and, Bool.and_eq_true,
    List.contains_iff_mem] at law
  refine ⟨law.trans (and_congr_right' (and_congr_right' header)), ?_⟩
  intro started first second grows (before : second < span.line) holdsFirst holdsSecond declared
  have begins {number : Nat} (less : number < span.line) (holds : source.HoldsText number) :
      Span.BeginOn analysis.spans number :=
    (beginOn_or_reaches known scanned holds).elim id (started number less holds)
  exact header.mp (law.mp declared).2.2
    ⟨first, second, grows, before, begins (by omega) holdsFirst, begins before holdsSecond⟩

/-- A literal goes on to the second line, on which code starts after it. -/
theorem no_encoding_after_literal_and_code :
    ∃ analysis, analyze .python .standard "x='''a\nb''';y\n#coding:z".toList = .ok analysis
      ∧ ∃ comment ∈ analysis.comments, comment.span.kind = .lineComment
        ∧ Text.HoldsText "x='''a\nb''';y\n#coding:z".toList 1
        ∧ Text.HoldsText "x='''a\nb''';y\n#coding:z".toList 2 ∧ comment.span.line = 3
        ∧ ¬(comment.verdict = .keep ∧ comment.reason = .encodingDirective) := by
  have scanned : Language.python.spans "x='''a\nb''';y\n#coding:z".toList
      = .ok [⟨.code, 0, 2, 1, 1, "x=".toList⟩, ⟨.stringLiteral, 2, 11, 1, 3, "'''a\nb'''".toList⟩,
        ⟨.code, 11, 13, 2, 5, ";y".toList⟩, ⟨.newline, 13, 14, 2, 7, "\n".toList⟩,
        ⟨.lineComment, 14, 23, 3, 1, "#coding:z".toList⟩] := by
    rw [Language.spans_eq_lexWithin]
    decide +kernel
  have analyzed := analyze_of_spans .standard scanned
  have first : Text.HoldsText "x='''a\nb''';y\n#coding:z".toList 1 :=
    ⟨0, 'x', rfl, by decide, by decide⟩
  have second : Text.HoldsText "x='''a\nb''';y\n#coding:z".toList 2 :=
    ⟨7, 'b', rfl, by decide, by decide⟩
  refine ⟨_, analyzed, ⟨⟨.lineComment, 14, 23, 3, 1, "#coding:z".toList⟩, .remove, .commentary⟩,
    by decide +kernel, rfl, first, second, rfl, ?_⟩
  refine (encoding_declared_in_header (by simp [Language.registered]) analyzed (by decide +kernel)
    rfl).2 ?_ 1 2 (by decide) (by decide) first second
  -- on both lines before the comment some code starts
  rintro number (less : number < 3) ⟨_, _, _, _, counted⟩ _
  obtain rfl | rfl : number = 1 ∨ number = 2 := by omega
  · exact ⟨⟨.code, 0, 2, 1, 1, "x=".toList⟩, by simp, rfl, rfl⟩
  · exact ⟨⟨.code, 11, 13, 2, 5, ";y".toList⟩, by simp, rfl, rfl⟩

/-- Nothing starts on the second line, which is the end of a literal. -/
theorem encoding_after_two_lines_of_literal :
    ∃ analysis, analyze .python .standard "'''a\nb'''\n#coding:c".toList = .ok analysis
      ∧ ∃ comment ∈ analysis.comments, comment.span.kind = .lineComment
        ∧ Text.HoldsText "'''a\nb'''\n#coding:c".toList 1
        ∧ Text.HoldsText "'''a\nb'''\n#coding:c".toList 2 ∧ comment.span.line = 3
        ∧ comment.verdict = .keep ∧ comment.reason = .encodingDirective := by
  have scanned : Language.python.spans "'''a\nb'''\n#coding:c".toList
      = .ok [⟨.stringLiteral, 0, 9, 1, 1, "'''a\nb'''".toList⟩,
        ⟨.newline, 9, 10, 2, 5, "\n".toList⟩,
        ⟨.lineComment, 10, 19, 3, 1, "#coding:c".toList⟩] := by
    rw [Language.spans_eq_lexWithin]
    decide +kernel
  refine ⟨_, analyze_of_spans .standard scanned,
    ⟨⟨.lineComment, 10, 19, 3, 1, "#coding:c".toList⟩, .keep, .encodingDirective⟩,
    by decide +kernel, rfl, ⟨0, '\'', rfl, by decide, by decide⟩,
    ⟨5, 'b', rfl, by decide, by decide⟩, rfl, rfl, rfl⟩

end Window

end CommentStrip
