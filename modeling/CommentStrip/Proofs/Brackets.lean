import CommentStrip.Language.Registry
import CommentStrip.Proofs.Agreement
import CommentStrip.Proofs.Progress
import Mathlib.Data.List.Induction

/-!
# Open brackets

Whether a line continues an earlier one is read from right to left, up to the first opening bracket
that nothing closes. From left to right, the same is asked by counting the brackets that are open. And
a logical line is read from right to left with a count of its own, which passes over the opening
brackets that nothing closes. Where no bracket is open at its end, there are none of these, so that
this count is true: the line begins where no bracket is open either.
-/
namespace CommentStrip.Layout

/-- The brackets that are open after a character, if `depth` are open before it. A closing bracket
that closes nothing does not count. -/
def depthPast (depth : Nat) (c : Char) : Nat :=
  if isOpeningBracket c then depth + 1 else if isClosingBracket c then depth - 1 else depth

/-- The brackets that are open after a text that is read from left to right. -/
def bracketDepth (text : Text) : Nat :=
  text.foldl depthPast 0

theorem bracketDepth_concat (text : Text) (c : Char) :
    bracketDepth (text ++ [c]) = depthPast (bracketDepth text) c :=
  List.foldl_concat ..

theorem not_isOpeningBracket_of_isClosingBracket {c : Char} (closing : isClosingBracket c = true) :
    isOpeningBracket c = false := by
  simp only [isClosingBracket, Bool.or_eq_true, beq_iff_eq] at closing
  rcases closing with (rfl | rfl) | rfl <;> decide

/-- From right to left, a bracket is left over if more are open than have been closed since. -/
theorem hasOpenBracket_reverse (closed : Nat) (text : Text) :
    hasOpenBracket closed text.reverse = true ↔ closed < bracketDepth text := by
  induction text using List.reverseRecOn generalizing closed with
  | nil => simp [hasOpenBracket, bracketDepth]
  | append_singleton earlier c ih =>
    rw [List.reverse_append, List.reverse_singleton, List.singleton_append, bracketDepth_concat]
    simp only [hasOpenBracket, depthPast]
    cases closing : isClosingBracket c with
    | true =>
      have other := not_isOpeningBracket_of_isClosingBracket closing
      simp only [other, if_true, Bool.false_eq_true, if_false, ih]
      omega
    | false =>
      cases opening : isOpeningBracket c with
      | true =>
        cases closed with
        | zero => simp
        | succ closed => simp [ih]
      | false => simp [ih]

variable {spans : List Span} {start : Nat}

/-- The line before the one that begins at `start` ends with a line break, and the backslash stands
before that. -/
theorem endsWithBackslash_take_iff (inside : start ≤ spans.length) :
    endsWithBackslash (spans.take start) = true
      ↔ ∃ place span, place + 2 = start ∧ spans[place]? = some span ∧ span.kind = .code
        ∧ span.endsWith '\\' = true := by
  match start with
  | 0 => simp [endsWithBackslash]
  | 1 => cases spans <;> simp [endsWithBackslash]
  | place + 2 =>
    have here : spans[place]? = some spans[place] := List.getElem?_eq_getElem (by omega)
    have next : spans[place + 1]? = some spans[place + 1] := List.getElem?_eq_getElem (by omega)
    have nearest : (spans.take (place + 2)).reverse
        = spans[place + 1] :: spans[place] :: before spans place :=
      (before_succ next).trans (congrArg _ (before_succ here))
    rw [endsWithBackslash, nearest]
    simp [here]

/--
A line continues an earlier one exactly if the earlier one ends with a backslash in code, or if a
bracket is open after the code before the line, read from left to right.
-/
theorem continuesLine_iff {index : Nat} (inside : index ≤ spans.length) :
    continuesLine spans index = true
      ↔ (∃ place span, place + 2 = lineStart spans index ∧ spans[place]? = some span
          ∧ span.kind = .code ∧ span.endsWith '\\' = true)
        ∨ 0 < bracketDepth (codeText (spans.take (lineStart spans index))) := by
  have start : lineStart spans index ≤ spans.length := Nat.le_trans (lineStart_le spans index) inside
  rw [continuesLine, Bool.or_eq_true, endsWithBackslash_take_iff start, hasOpenBracket_reverse]

/-- A closing bracket that closes nothing takes nothing from the depth. -/
theorem continuesLine_iff_of_unmatched :
    let spans : List Span := [⟨.code, 0, 2, 1, 1, ")(".toList⟩, ⟨.newline, 2, 3, 1, 3, "\n".toList⟩,
      ⟨.stringLiteral, 3, 6, 2, 1, "'a'".toList⟩]
    2 ≤ spans.length
      ∧ (continuesLine spans 2 = true
        ↔ (∃ place span, place + 2 = lineStart spans 2 ∧ spans[place]? = some span
            ∧ span.kind = .code ∧ span.endsWith '\\' = true)
          ∨ 0 < bracketDepth (codeText (spans.take (lineStart spans 2))))
      ∧ continuesLine spans 2 = true := by
  intro spans
  have inside : 2 ≤ spans.length := by decide
  have depth : 0 < bracketDepth (codeText (spans.take (lineStart spans 2))) := by decide
  have forward := continuesLine_iff inside
  exact ⟨inside, forward, forward.mpr (.inr depth)⟩

/-- A line begins after some spans, nearest first, and goes on with none of them: a line break without
a backslash before it comes last, or nothing, and no bracket is open. -/
structure LineBegins (earlier : List Span) : Prop where
  newline : ∀ span ∈ earlier.head?, span.kind = .newline
  finished : earlier.tail.head?.any (·.endsWith '\\') = false
  balanced : hasOpenBracket 0 (codeText earlier.reverse).reverse = false

/-- A logical line that ends outside brackets takes spans up to where a line begins that continues no
other. -/
theorem exists_append_logicalBefore (closed : Nat) (nearest : List Span)
    (balanced : hasOpenBracket closed (codeText nearest.reverse).reverse = false) :
    ∃ earlier, nearest = logicalBefore closed nearest ++ earlier ∧ LineBegins earlier := by
  -- from right to left; the invariant is that no bracket is open in what is still to be read, so that
  -- no opening bracket is passed over
  induction nearest generalizing closed with
  | nil => exact ⟨[], rfl, by simp, rfl, rfl⟩
  | cons span others ih =>
    rw [List.reverse_cons] at balanced
    simp only [logicalBefore]
    cases kind : span.kind with
    | code =>
      obtain ⟨earlier, whole, begins⟩ := ih _ (balanced_before_code balanced kind)
      exact ⟨earlier, congrArg (span :: ·) whole, begins⟩
    | newline =>
      have still := balanced_before_other balanced (by simp [kind])
      by_cases ends : closed = 0 ∧ others.head?.any (·.endsWith '\\') = false
      · obtain ⟨rfl, finished⟩ := ends
        refine ⟨span :: others, by simp [finished], by simpa using kind, finished, ?_⟩
        rwa [List.reverse_cons]
      · obtain ⟨earlier, whole, begins⟩ := ih _ still
        simp only [if_neg ends]
        exact ⟨earlier, congrArg (span :: ·) whole, begins⟩
    | stringLiteral | lineComment | blockComment | whitespace =>
      obtain ⟨earlier, whole, begins⟩ := ih _ (balanced_before_other balanced (by simp [kind]))
      exact ⟨earlier, congrArg (span :: ·) whole, begins⟩

/-- The spans up to the end of a logical line are those before it and its own. -/
theorem take_eq_logicalStart_append {index : Nat} (inside : index < spans.length)
    (balanced : hasOpenBracket 0 (codeText (spans.take (index + 1))).reverse = false) :
    spans.take (index + 1)
        = spans.take (logicalStart spans index) ++ (logicalSpans spans index).reverse
      ∧ LineBegins (before spans (logicalStart spans index)) := by
  have read : codeText (before spans (index + 1)).reverse = codeText (spans.take (index + 1)) := by
    rw [before, List.reverse_reverse]
  rw [← read] at balanced
  obtain ⟨earlier, nearest, begins⟩ := exists_append_logicalBefore 0 _ balanced
  have whole : spans.take (index + 1) = earlier.reverse ++ (logicalSpans spans index).reverse := by
    rw [logicalSpans, ← List.reverse_append, ← nearest, before, List.reverse_reverse]
  have size := congrArg List.length whole
  simp only [List.length_take, List.length_append, List.length_reverse, Nat.min_eq_left inside] at size
  have start : logicalStart spans index = earlier.length := by
    rw [logicalStart]
    omega
  have first : spans.take earlier.length = earlier.reverse := by
    have shorter : spans.take earlier.length = (spans.take (index + 1)).take earlier.length := by
      rw [List.take_take, Nat.min_eq_left (by omega)]
    rw [shorter, whole, List.take_left' List.length_reverse]
  rw [start, before, first, List.reverse_reverse]
  exact ⟨whole, begins⟩

theorem LineBegins.after_newline (begins : LineBegins (before spans start))
    (inside : start ≤ spans.length) :
    start = 0 ∨ ∃ place span, place + 1 = start ∧ spans[place]? = some span
      ∧ span.kind = .newline := by
  cases start with
  | zero => exact .inl rfl
  | succ place =>
    have here : spans[place]? = some spans[place] := List.getElem?_eq_getElem inside
    refine .inr ⟨place, spans[place], rfl, here, begins.newline _ ?_⟩
    rw [before_succ here]
    rfl

/-- Where a line begins that continues no other, this is what the layout says of it. -/
theorem LineBegins.continuesLine (begins : LineBegins (before spans start)) :
    continuesLine spans start = false := by
  have nothing : lineBefore spans start = [] := by
    rw [lineBefore]
    cases nearest : before spans start with
    | nil => rfl
    | cons span others =>
      have newline := begins.newline span (by simp [nearest])
      simp [newline]
  have here : lineStart spans start = start := by
    rw [lineStart, nothing]
    rfl
  have finished : endsWithBackslash (spans.take start) = false := by
    have last := begins.finished
    rw [before] at last
    unfold endsWithBackslash
    split
    next _ span _ nearest =>
      have unmarked : span.endsWith '\\' = false := by simpa [nearest] using last
      rw [unmarked, Bool.and_false]
    next => rfl
  have balanced := begins.balanced
  rw [before, List.reverse_reverse] at balanced
  rw [Layout.continuesLine, here, finished, balanced]
  rfl

/-- A logical line that ends with code takes at least that. -/
theorem logicalStart_le {index : Nat} {span : Span} (found : spans[index]? = some span)
    (code : span.kind = .code) : logicalStart spans index ≤ index := by
  have first : logicalSpans spans index
      = span :: logicalBefore (closedBefore 0 span.text.reverse) (before spans index) := by
    rw [logicalSpans, before_succ found]
    simp only [logicalBefore, code]
  rw [logicalStart, first, List.length_cons]
  omega

theorem logicalLine_eq {index : Nat} {passed : List Span}
    (whole : spans.take (index + 1) = passed ++ (logicalSpans spans index).reverse)
    (start : passed.length = logicalStart spans index) :
    logicalLine spans index
      = (((spans.take (index + 1)).drop (logicalStart spans index)).filter
          (!·.kind.isComment)).flatMap Span.text := by
  rw [logicalLine, whole, ← start, List.drop_left]

/--
The logical line that is matched against the keywords of a header before a docstring begins with the
first span of all or right after a line break, and the line that begins there continues no other.
-/
theorem logicalStart_of_docstring {language : Language} {index header : Nat}
    (docstring : index ∈ language.docstringIndices spans)
    (previous : previousSignificant? spans index = some header) :
    (logicalStart spans header = 0
        ∨ ∃ place span, place + 1 = logicalStart spans header ∧ spans[place]? = some span
          ∧ span.kind = .newline)
      ∧ continuesLine spans (logicalStart spans header) = false
      ∧ logicalStart spans header ≤ header
      ∧ logicalLine spans header
        = (((spans.take (header + 1)).drop (logicalStart spans header)).filter
            (!·.kind.isComment)).flatMap Span.text := by
  obtain ⟨rule, -, documents⟩ := Language.exists_rule_of_docstring docstring
  simp only [HeaderRule.isDocstring, previous, Option.all_some, HeaderRule.opensDocumentedBlock,
    Bool.and_eq_true] at documents
  obtain ⟨statement, ends, -⟩ := documents
  obtain ⟨opener, found, ending⟩ := (Option.any_eq_true ..).mp ends
  rw [HeaderRule.endsHeader, Bool.and_eq_true, beq_iff_eq] at ending
  have inside : header < spans.length := (List.getElem?_eq_some_iff.mp found).1
  have balanced := balanced_of_isStatementLiteral statement previous
  obtain ⟨whole, begins⟩ := take_eq_logicalStart_append inside balanced
  have start := logicalStart_le found ending.1
  refine ⟨begins.after_newline (by omega), begins.continuesLine, start, logicalLine_eq whole ?_⟩
  rw [List.length_take]
  omega

/-- A header with a bracket, a backslash and a comment, after a line of its own. -/
theorem logicalStart_of_continued_header :
    ∃ spans, Language.python.spans "[]\ndef f(\\\n a\n):#c\n 'd'".toList = .ok spans
      ∧ 13 ∈ Language.python.docstringIndices spans
      ∧ previousSignificant? spans 13 = some 9
      ∧ (logicalStart spans 9 = 0
        ∨ ∃ place span, place + 1 = logicalStart spans 9 ∧ spans[place]? = some span
          ∧ span.kind = .newline)
      ∧ continuesLine spans (logicalStart spans 9) = false
      ∧ logicalStart spans 9 = 2
      ∧ logicalLine spans 9 = "def f(\\\n a\n):".toList := by
  obtain ⟨spans, made⟩ : ∃ spans : List Span, spans
      = [⟨.code, 0, 2, 1, 1, "[]".toList⟩, ⟨.newline, 2, 3, 1, 3, "\n".toList⟩,
        ⟨.code, 3, 6, 2, 1, "def".toList⟩, ⟨.whitespace, 6, 7, 2, 4, " ".toList⟩,
        ⟨.code, 7, 10, 2, 5, "f(\\".toList⟩, ⟨.newline, 10, 11, 2, 8, "\n".toList⟩,
        ⟨.whitespace, 11, 12, 3, 1, " ".toList⟩, ⟨.code, 12, 13, 3, 2, "a".toList⟩,
        ⟨.newline, 13, 14, 3, 3, "\n".toList⟩, ⟨.code, 14, 16, 4, 1, "):".toList⟩,
        ⟨.lineComment, 16, 18, 4, 3, "#c".toList⟩, ⟨.newline, 18, 19, 4, 5, "\n".toList⟩,
        ⟨.whitespace, 19, 20, 5, 1, " ".toList⟩,
        ⟨.stringLiteral, 20, 23, 5, 2, "'d'".toList⟩] := ⟨_, rfl⟩
  have scanned : Language.python.spans "[]\ndef f(\\\n a\n):#c\n 'd'".toList = .ok spans := by
    rw [made, Language.spans_eq_lexWithin]
    decide +kernel
  have docstring : 13 ∈ Language.python.docstringIndices spans := by
    rw [made]
    decide +kernel
  have previous : previousSignificant? spans 13 = some 9 := by
    rw [made]
    decide
  have start : logicalStart spans 9 = 2 := by
    rw [made]
    decide
  obtain ⟨line, begins, -, text⟩ := logicalStart_of_docstring docstring previous
  refine ⟨spans, scanned, docstring, previous, line, begins, start, ?_⟩
  rw [text, start, made]
  decide

end CommentStrip.Layout
