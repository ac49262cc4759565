import CommentStrip.Decision.Rules
import CommentStrip.Proofs.Agreement
import CommentStrip.Proofs.LineEnding.Scan

/-!
# Decisions about line feeds and pairs

Spans that correspond in kind, in line and, up to the ends of lines, in text are decided about alike.
No rule reads a line break: comments and the blanks of an indentation hold none, a logical line is only
asked for the word at its start, and a backslash at the end of a line stands before the pair as it
stood before the line feed.
-/
namespace CommentStrip

open Text

theorem Text.trimStart_crlf (text : Text) : trimStart (crlf text) = crlf (trimStart text) :=
  dropWhile_crlf text (by decide) (by decide)

/-- The pair behind a keyword is white space as the line feed is. -/
theorem startsWithKeyword_crlf {keyword : Text} (plain : ∀ c ∈ keyword, isLineBreak c = false)
    (text : Text) : startsWithKeyword (crlf text) keyword = startsWithKeyword text keyword := by
  rw [startsWithKeyword, startsWithKeyword, isPrefixOf_crlf plain]
  cases opens : keyword.isPrefixOf text with
  | false => rfl
  | true =>
    obtain ⟨rest, rfl⟩ := List.isPrefixOf_iff_prefix.mp opens
    rw [crlf_append, crlf_of_plain (not_mem_feed_of_unbroken plain), List.drop_left, List.drop_left]
    congr 1
    cases rest with
    | nil => rfl
    | cons c others =>
      by_cases feed : c = '\n'
      · subst feed
        rfl
      · rw [crlf_cons feed]
        rfl

namespace Span.Crlf

variable {span other : Span}

theorem sameCode (same : span.Crlf other) : span.SameCode other where
  kind := same.kind
  text code := same.same_text (by simp [code]) (by simp [code])

theorem endsWith_eq (same : span.Crlf other) (c : Char) : other.endsWith c = span.endsWith c := by
  rw [Span.endsWith, Span.endsWith, same.text, getLast?_crlf]

theorem text_of_isComment (same : span.Crlf other) (comment : span.kind.isComment = true) :
    other.text = span.text := by
  apply same.same_text
  · intro newline
    simp [newline, Kind.isComment] at comment
  · intro literal
    simp [literal, Kind.isComment] at comment

end Span.Crlf

section Docstrings

variable {spans others : List Span} (same : List.Forall₂ Span.Crlf spans others)

include same

theorem forall₂_sameCode : List.Forall₂ Span.SameCode spans others :=
  same.imp fun _ _ => Span.Crlf.sameCode

private theorem sameContinuations : Layout.SameContinuations spans others := by
  intro index span found other foundOther _
  exact (Layout.related_of_getElem? same found foundOther).endsWith_eq '\\'

/-- What spans without their comments say. -/
private theorem flatMap_text_crlf :
    (others.filter (!·.kind.isComment)).flatMap Span.text
      = crlf ((spans.filter (!·.kind.isComment)).flatMap Span.text) := by
  induction same with
  | nil => rfl
  | @cons span other _ _ alike _ ih =>
    simp only [List.filter_cons, alike.kind]
    split
    · rw [List.flatMap_cons, List.flatMap_cons, crlf_append, ih, alike.text]
    · exact ih

/-- The same literals are docstrings. -/
theorem docstringIndices_crlf {language : Language} (lines : language.LineOriented) :
    language.docstringIndices others = language.docstringIndices spans := by
  apply Language.docstringIndices_eq (forall₂_sameCode same)
  intro rule known previous balanced
  -- the header consists of corresponding spans, since both texts continue the same lines
  have line := Layout.forall₂_logicalSpans same (fun _ _ => Span.Crlf.sameCode)
    (sameContinuations same) balanced
  rw [HeaderRule.announces, HeaderRule.announces, Layout.logicalLine, Layout.logicalLine,
    flatMap_text_crlf line, trimStart_crlf]
  -- the word at the start of the header is the same
  rw [Bool.eq_iff_iff, List.any_eq_true, List.any_eq_true]
  apply exists_congr
  intro keyword
  apply and_congr_right
  intro member
  rw [startsWithKeyword_crlf (lines.keywords rule known keyword member)]

end Docstrings

section Context

variable {spans others : List Span} (same : List.Forall₂ Span.Crlf spans others)

include same

theorem headerLines_crlf : headerLines others = headerLines spans := by
  have lines : (others.filter (!·.kind.isBlank)).map Span.line
      = (spans.filter (!·.kind.isBlank)).map Span.line := by
    induction same with
    | nil => rfl
    | @cons span other _ _ alike _ ih =>
      simp only [List.filter_cons, alike.kind]
      split
      · rw [List.map_cons, List.map_cons, ih, alike.line]
      · exact ih
  rw [headerLines, headerLines, lines]

theorem indentation_crlf (index : Nat) :
    Layout.indentation others index = Layout.indentation spans index := by
  rw [Layout.indentation, Layout.indentation, Layout.lineStart_eq (forall₂_sameCode same)]
  generalize Layout.lineStart spans index = first
  cases found : spans[first]? with
  | none =>
    have outside : others[first]? = none := by
      rw [List.getElem?_eq_none_iff, ← same.length_eq]
      exact List.getElem?_eq_none_iff.mp found
    rw [outside]
  | some span =>
    obtain ⟨other, foundOther, alike⟩ := Layout.exists_getElem?_of_forall₂ same found
    simp only [foundOther, alike.kind]
    -- only blanks count, and these hold no line feed
    split
    next blank => rw [alike.same_text (by simp [blank]) (by simp [blank])]
    · rfl

namespace DecisionContext

theorem blockEndsEmpty_crlf (indent : Nat) (indices : List Nat) :
    blockEndsEmpty others indent indices = blockEndsEmpty spans indent indices := by
  induction indices with
  | nil => rfl
  | cons next later ih =>
    simp only [blockEndsEmpty, indentation_crlf same, ih,
      Layout.isStatementLiteral_eq (forall₂_sameCode same)]

theorem significantAfter_crlf (index : Nat) :
    significantAfter others index = significantAfter spans index := by
  rw [significantAfter, significantAfter, same.length_eq]
  apply List.filter_congr
  intro later _
  apply Layout.any_getElem?_of_forall₂ same
  intro span other alike
  rw [Span.isSignificant, Span.isSignificant, alike.kind]

variable {language : Language} {options : Options} {docstrings : List Nat}

theorem holdsBlockOpen_crlf (index : Nat) :
    holdsBlockOpen ⟨language, options, others, docstrings⟩ index
      = holdsBlockOpen ⟨language, options, spans, docstrings⟩ index := by
  simp only [holdsBlockOpen, Layout.previousSignificant?_eq (forall₂_sameCode same),
    HeaderRule.any_endsHeader_eq (forall₂_sameCode same), indentation_crlf same,
    significantAfter_crlf same, blockEndsEmpty_crlf same]

omit same in
theorem isInterpreterDirective_crlf {span other : Span} (alike : span.Crlf other) :
    isInterpreterDirective other = isInterpreterDirective span := by
  have start : (other.start == 0) = (span.start == 0) := by
    rw [Bool.eq_iff_iff, beq_iff_eq, beq_iff_eq]
    exact alike.start
  rw [isInterpreterDirective, isInterpreterDirective, alike.kind, start]
  by_cases comment : span.kind = .lineComment
  · rw [alike.text_of_isComment (by rw [comment]; rfl)]
  · have different : (span.kind == .lineComment) = false := beq_eq_false_iff_ne.mpr comment
    rw [different]
    rfl

theorem isEncodingDirective_crlf {span other : Span} (alike : span.Crlf other) :
    isEncodingDirective ⟨language, options, others, docstrings⟩ other
      = isEncodingDirective ⟨language, options, spans, docstrings⟩ span := by
  rw [isEncodingDirective, isEncodingDirective, alike.kind, alike.line, headerLines_crlf same]
  by_cases comment : span.kind = .lineComment
  · rw [alike.text_of_isComment (by rw [comment]; rfl)]
  · have different : (span.kind == .lineComment) = false := beq_eq_false_iff_ne.mpr comment
    rw [different]
    rfl

/-- Corresponding spans are kept for the same reason, if for any. -/
theorem reasonToKeep?_crlf (index : Nat) {span other : Span} (alike : span.Crlf other) :
    reasonToKeep? ⟨language, options, others, docstrings⟩ index other
      = reasonToKeep? ⟨language, options, spans, docstrings⟩ index span := by
  have document : (other.kind.isComment && options.keepDocComments && language.isDocComment other.text)
      = (span.kind.isComment && options.keepDocComments && language.isDocComment span.text) := by
    rw [alike.kind]
    cases comment : span.kind.isComment with
    | true => rw [alike.text_of_isComment comment]
    | false => rfl
  have range : isOutsideRange ⟨language, options, others, docstrings⟩ other
      = isOutsideRange ⟨language, options, spans, docstrings⟩ span := by
    rw [isOutsideRange, isOutsideRange, alike.line]
  unfold reasonToKeep?
  rw [isInterpreterDirective_crlf alike, isEncodingDirective_crlf same alike, document, alike.kind,
    holdsBlockOpen_crlf same, range]

end DecisionContext

/-- If candidates and decisions correspond at each index, the lists of decisions are the same. -/
private theorem filter_map_zipIdx_eq {α : Type} {p q : Nat → Span → Bool} {f g : Nat → Span → α}
    (pointwise : ∀ index span other, span.Crlf other →
      q index other = p index span ∧ g index other = f index span) (first : Nat) :
    ((others.zipIdx first).filter fun entry => q entry.2 entry.1).map (fun entry => g entry.2 entry.1)
      = ((spans.zipIdx first).filter fun entry => p entry.2 entry.1).map
        fun entry => f entry.2 entry.1 := by
  induction same generalizing first with
  | nil => rfl
  | @cons span other _ _ alike _ ih =>
    obtain ⟨chosen, result⟩ := pointwise first span other alike
    simp only [List.zipIdx_cons, List.filter_cons, chosen]
    split
    · rw [List.map_cons, List.map_cons, result, ih]
    · exact ih (first + 1)

/-- The same is decided about corresponding spans. -/
theorem classify_crlf {language : Language} (lines : language.LineOriented) (options : Options) :
    classify language options others = classify language options spans := by
  rw [classify, classify, docstringIndices_crlf same lines]
  -- with the same docstrings, the decisions are made index by index
  generalize language.docstringIndices spans = docstrings
  have pointwise (index : Nat) (span other : Span) (alike : span.Crlf other) :
      DecisionContext.isCandidate ⟨language, options, others, docstrings⟩ index other
          = DecisionContext.isCandidate ⟨language, options, spans, docstrings⟩ index span
        ∧ DecisionContext.decisionFor ⟨language, options, others, docstrings⟩ index other
          = DecisionContext.decisionFor ⟨language, options, spans, docstrings⟩ index span := by
    constructor
    · simp only [DecisionContext.isCandidate, alike.kind,
        Layout.isStatementLiteral_eq (forall₂_sameCode same)]
    · rw [DecisionContext.decisionFor, DecisionContext.decisionFor,
        DecisionContext.reasonToKeep?_crlf same index alike]
  exact filter_map_zipIdx_eq same pointwise 0

end Context

end CommentStrip
