import CommentStrip.Language.Registry
import CommentStrip.Proofs.Agreement
import CommentStrip.Proofs.Progress

/-!
# The wording of comments

What comments say plays a part in one place of the search for docstrings only. A logical line goes on
over a line break after a backslash, and there the backslash may be the last character of a comment;
whether a line continues an earlier one asks for a backslash in code. Apart from that backslash,
comments may say anything.
-/
namespace CommentStrip

/-- Two spans of one kind that say the same unless they are comments. -/
structure Span.Reworded (span other : Span) : Prop where
  kind : other.kind = span.kind
  text : span.kind.isComment = false → other.text = span.text

theorem Span.Reworded.sameCode {span other : Span} (reworded : span.Reworded other) :
    span.SameCode other where
  kind := reworded.kind
  text code := reworded.text (by rw [code]; rfl)

variable {spans others : List Span}

/-- Without their comments, reworded spans say the same. -/
private theorem flatMap_text_eq (reworded : List.Forall₂ Span.Reworded spans others) :
    (others.filter (!·.kind.isComment)).flatMap Span.text
      = (spans.filter (!·.kind.isComment)).flatMap Span.text := by
  induction reworded with
  | nil => rfl
  | @cons span other _ _ alike _ ih =>
    simp only [List.filter_cons, alike.kind]
    cases comment : span.kind.isComment with
    | true => exact ih
    | false => simp only [Bool.not_false, if_true, List.flatMap_cons, ih, alike.text comment]

/--
The docstrings are the same whatever the comments say, as long as every comment that stands outside
brackets ends with a backslash in both sequences or in neither.
-/
theorem docstringIndices_of_reworded {language : Language}
    (reworded : List.Forall₂ Span.Reworded spans others)
    (ends : ∀ index, ∀ span ∈ spans[index]?, ∀ other ∈ others[index]?,
      span.kind.isComment = true →
      Layout.hasOpenBracket 0 (Layout.codeText (spans.take index)).reverse = false →
      other.endsWith '\\' = span.endsWith '\\') :
    language.docstringIndices others = language.docstringIndices spans := by
  have continued : Layout.SameContinuations spans others := by
    intro index span found other foundOther balanced
    rw [Option.mem_def] at found foundOther
    have alike := Layout.related_of_getElem? reworded found foundOther
    cases comment : span.kind.isComment with
    | false => rw [Span.endsWith, Span.endsWith, alike.text comment]
    | true =>
      apply ends index span found other foundOther comment
      -- a comment adds no code to what comes before it
      have noCode : span.kind ≠ .code := by
        intro code
        simp [code, Kind.isComment] at comment
      rwa [List.take_add_one, found, Option.toList_some, Layout.codeText_append,
        Layout.codeText_singleton, if_neg noCode, List.append_nil] at balanced
  apply Language.docstringIndices_eq (reworded.imp fun _ _ => Span.Reworded.sameCode)
  intro rule _ previous balanced
  -- both headers take the spans in the same places, and they are read without their comments
  have line := Layout.forall₂_logicalSpans reworded (fun _ _ => Span.Reworded.sameCode) continued
    balanced
  rw [HeaderRule.announces, HeaderRule.announces, Layout.logicalLine, Layout.logicalLine,
    flatMap_text_eq line]

/-- A comment in the parameters of a function may gain a backslash, and one after the header may be
cut short. -/
theorem docstring_of_reworded_header :
    ∃ spans others, Language.python.spans "def f(#a\n):#bc\n 'd'".toList = .ok spans
      ∧ Language.python.spans "def f(#\\\n):#b\n 'd'".toList = .ok others
      ∧ List.Forall₂ Span.Reworded spans others
      ∧ (∀ index, ∀ span ∈ spans[index]?, ∀ other ∈ others[index]?,
        span.kind.isComment = true →
        Layout.hasOpenBracket 0 (Layout.codeText (spans.take index)).reverse = false →
        other.endsWith '\\' = span.endsWith '\\')
      ∧ Language.python.docstringIndices others = Language.python.docstringIndices spans
      ∧ Language.python.docstringIndices spans = [9] := by
  obtain ⟨spans, made⟩ : ∃ spans : List Span, spans
      = [⟨.code, 0, 3, 1, 1, "def".toList⟩, ⟨.whitespace, 3, 4, 1, 4, " ".toList⟩,
        ⟨.code, 4, 6, 1, 5, "f(".toList⟩, ⟨.lineComment, 6, 8, 1, 7, "#a".toList⟩,
        ⟨.newline, 8, 9, 1, 9, "\n".toList⟩, ⟨.code, 9, 11, 2, 1, "):".toList⟩,
        ⟨.lineComment, 11, 14, 2, 3, "#bc".toList⟩, ⟨.newline, 14, 15, 2, 6, "\n".toList⟩,
        ⟨.whitespace, 15, 16, 3, 1, " ".toList⟩,
        ⟨.stringLiteral, 16, 19, 3, 2, "'d'".toList⟩] := ⟨_, rfl⟩
  obtain ⟨others, madeOther⟩ : ∃ others : List Span, others
      = [⟨.code, 0, 3, 1, 1, "def".toList⟩, ⟨.whitespace, 3, 4, 1, 4, " ".toList⟩,
        ⟨.code, 4, 6, 1, 5, "f(".toList⟩, ⟨.lineComment, 6, 8, 1, 7, "#\\".toList⟩,
        ⟨.newline, 8, 9, 1, 9, "\n".toList⟩, ⟨.code, 9, 11, 2, 1, "):".toList⟩,
        ⟨.lineComment, 11, 13, 2, 3, "#b".toList⟩, ⟨.newline, 13, 14, 2, 5, "\n".toList⟩,
        ⟨.whitespace, 14, 15, 3, 1, " ".toList⟩,
        ⟨.stringLiteral, 15, 18, 3, 2, "'d'".toList⟩] := ⟨_, rfl⟩
  have scanned : Language.python.spans "def f(#a\n):#bc\n 'd'".toList = .ok spans := by
    rw [made, Language.spans_eq_lexWithin]
    decide +kernel
  have scannedOther : Language.python.spans "def f(#\\\n):#b\n 'd'".toList = .ok others := by
    rw [madeOther, Language.spans_eq_lexWithin]
    decide +kernel
  have same : List.Forall₂ Span.Reworded spans others := by
    rw [made, madeOther]
    repeat' constructor
    all_goals decide
  have ends : ∀ index, ∀ span ∈ spans[index]?, ∀ other ∈ others[index]?,
      span.kind.isComment = true →
      Layout.hasOpenBracket 0 (Layout.codeText (spans.take index)).reverse = false →
      other.endsWith '\\' = span.endsWith '\\' := by
    intro index
    by_cases inside : index < 10
    · have checked : ∀ index < 10, ∀ span ∈ spans[index]?, ∀ other ∈ others[index]?,
          span.kind.isComment = true →
          Layout.hasOpenBracket 0 (Layout.codeText (spans.take index)).reverse = false →
          other.endsWith '\\' = span.endsWith '\\' := by
        rw [made, madeOther]
        decide
      exact checked index inside
    · have outside : spans[index]? = none := by
        rw [List.getElem?_eq_none_iff, made]
        exact Nat.le_of_not_lt inside
      simp [outside]
  refine ⟨spans, others, scanned, scannedOther, same, ends, ?_, ?_⟩
  · exact docstringIndices_of_reworded same ends
  · rw [made]
    decide +kernel

/-- A backslash at the end of a comment joins the header after it to the line with the comment. -/
theorem reworded_comment_makes_docstring :
    ∃ spans others, Language.python.spans "def f():#a\n if x:\n  'b'".toList = .ok spans
      ∧ Language.python.spans "def f():#\\\n if x:\n  'b'".toList = .ok others
      ∧ List.Forall₂ Span.Reworded spans others
      ∧ Language.python.docstringIndices spans = []
      ∧ Language.python.docstringIndices others = [11] := by
  refine ⟨[⟨.code, 0, 3, 1, 1, "def".toList⟩, ⟨.whitespace, 3, 4, 1, 4, " ".toList⟩,
      ⟨.code, 4, 8, 1, 5, "f():".toList⟩, ⟨.lineComment, 8, 10, 1, 9, "#a".toList⟩,
      ⟨.newline, 10, 11, 1, 11, "\n".toList⟩, ⟨.whitespace, 11, 12, 2, 1, " ".toList⟩,
      ⟨.code, 12, 14, 2, 2, "if".toList⟩, ⟨.whitespace, 14, 15, 2, 4, " ".toList⟩,
      ⟨.code, 15, 17, 2, 5, "x:".toList⟩, ⟨.newline, 17, 18, 2, 7, "\n".toList⟩,
      ⟨.whitespace, 18, 20, 3, 1, "  ".toList⟩, ⟨.stringLiteral, 20, 23, 3, 3, "'b'".toList⟩],
    [⟨.code, 0, 3, 1, 1, "def".toList⟩, ⟨.whitespace, 3, 4, 1, 4, " ".toList⟩,
      ⟨.code, 4, 8, 1, 5, "f():".toList⟩, ⟨.lineComment, 8, 10, 1, 9, "#\\".toList⟩,
      ⟨.newline, 10, 11, 1, 11, "\n".toList⟩, ⟨.whitespace, 11, 12, 2, 1, " ".toList⟩,
      ⟨.code, 12, 14, 2, 2, "if".toList⟩, ⟨.whitespace, 14, 15, 2, 4, " ".toList⟩,
      ⟨.code, 15, 17, 2, 5, "x:".toList⟩, ⟨.newline, 17, 18, 2, 7, "\n".toList⟩,
      ⟨.whitespace, 18, 20, 3, 1, "  ".toList⟩, ⟨.stringLiteral, 20, 23, 3, 3, "'b'".toList⟩],
    ?_, ?_, ?_, by decide +kernel, by decide +kernel⟩
  · rw [Language.spans_eq_lexWithin]
    decide +kernel
  · rw [Language.spans_eq_lexWithin]
    decide +kernel
  · repeat' constructor
    all_goals decide

end CommentStrip
