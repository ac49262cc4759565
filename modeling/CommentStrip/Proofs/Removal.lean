import CommentStrip.Analysis
import CommentStrip.Proofs.Collision
import CommentStrip.Proofs.Lines

/-!
# What an analysis removes

Whatever a user retains, an analysis removes only comments and, in a language with docstrings, string
literals that are statements. Its spans with the marks of removal are thus an edit of the source.
-/
namespace CommentStrip

theorem analyze_of_spans {language : Language} (options : Options) {source : Text}
    {spans : List Span} (scanned : language.spans source = .ok spans) :
    analyze language options source
      = .ok ⟨language, options, spans, classify language options spans⟩ := by
  rw [analyze, scanned]

theorem lookup_name {language : Language} (known : language ∈ Language.registered) :
    Language.lookup language.name = .ok language := by
  simp only [Language.registered, List.mem_cons, List.not_mem_nil, or_false] at known
  rcases known with rfl | rfl | rfl | rfl <;> rfl

theorem process_of_lookup {id : String} {language : Language}
    (found : Language.lookup id = .ok language) (options : Options) (source : Text) :
    process id options source = (analyze language options source).map Analysis.rewritten := by
  rw [process, found]
  cases analyzed : analyze language options source with
  | error cause =>
    change (analyze language options source).bind _ = _
    rw [analyzed]
    rfl
  | ok analysis =>
    change (analyze language options source).bind _ = _
    rw [analyzed]
    rfl

theorem process_eq_map {language : Language} (known : language ∈ Language.registered)
    (options : Options) (source : Text) :
    process language.name options source
      = (analyze language options source).map Analysis.rewritten :=
  process_of_lookup (lookup_name known) options source

theorem process_of_analyze {language : Language} (known : language ∈ Language.registered)
    {options : Options} {source : Text} {analysis : Analysis}
    (analyzed : analyze language options source = .ok analysis) :
    process language.name options source = .ok analysis.rewritten := by
  rw [process_eq_map known, analyzed]
  rfl

theorem map_span_markRemoved (spans : List Span) (removed : List Nat) :
    (markRemoved spans removed).map Piece.span = spans := by
  rw [markRemoved, List.map_map]
  exact List.zipIdx_map_fst 0 spans

/-- The mark of a piece is read off the number of pieces before it. -/
theorem removed_of_markRemoved {spans : List Span} {removed : List Nat} {earlier later : List Piece}
    {piece : Piece} (split : markRemoved spans removed = earlier ++ piece :: later) :
    spans[earlier.length]? = some piece.span
      ∧ piece.removed = removed.contains earlier.length := by
  have found := congrArg (·[earlier.length]?) split
  simp only [markRemoved, List.getElem?_map, List.getElem?_zipIdx, Nat.zero_add,
    List.getElem?_append_right (Nat.le_refl _), Nat.sub_self, List.getElem?_cons_zero,
    Option.map_map] at found
  obtain ⟨span, here, rfl⟩ := Option.map_eq_some_iff.mp found
  exact ⟨here, rfl⟩

/-- A line that loses nothing is written as it is. -/
theorem writeGroup_of_kept {group : List Piece} (kept : ∀ piece ∈ group, piece.removed = false) :
    writeGroup group = Piece.textOf group := by
  rw [writeGroup, if_pos (by simpa using kept)]
  rfl

theorem flatMap_writeGroup_of_kept {groups : List (List Piece)}
    (kept : ∀ piece ∈ groups.flatten, piece.removed = false) :
    groups.flatMap writeGroup = Piece.textOf groups.flatten := by
  induction groups with
  | nil => rfl
  | cons group rest ih =>
    rw [List.flatten_cons, List.forall_mem_append] at kept
    rw [List.flatMap_cons, writeGroup_of_kept kept.1, ih kept.2, List.flatten_cons,
      Piece.textOf_append]

/-- Where nothing is removed, the text stays as it is. -/
theorem writeLines_of_kept {pieces : List Piece} (kept : ∀ piece ∈ pieces, piece.removed = false) :
    writeLines pieces = Piece.textOf pieces := by
  rw [writeLines, flatMap_writeGroup_of_kept (by rwa [flatten_lineGroups]), flatten_lineGroups]

theorem kept_of_unmarked {spans : List Span} :
    ∀ piece ∈ markRemoved spans [], piece.removed = false := by
  simp only [markRemoved, List.forall_mem_map]
  exact fun _ _ => rfl

/-- A source from which nothing is removed is written again as it was. -/
theorem writeLines_unmarked {language : Language} {source : Text} {spans : List Span}
    (scanned : language.spans source = .ok spans) : writeLines (markRemoved spans []) = source := by
  calc writeLines (markRemoved spans [])
      = Piece.textOf (markRemoved spans []) := writeLines_of_kept kept_of_unmarked
    _ = ((markRemoved spans []).map Piece.span).flatMap Span.text := by rw [List.flatMap_map]; rfl
    _ = source := by rw [map_span_markRemoved, (Language.partition_of_spans scanned).text]

/-- The index of a removed span is that of a decision to remove. -/
theorem mem_removedIndices {decisions : List Decision} {index : Nat} :
    index ∈ removedIndices decisions
      ↔ ∃ decision ∈ decisions, decision.isRemoval = true ∧ decision.span = index := by
  simp [removedIndices, and_assoc]

theorem removedIndices_eq_nil_iff {decisions : List Decision} :
    removedIndices decisions = [] ↔ ∀ decision ∈ decisions, decision.isRemoval = false := by
  rw [List.eq_nil_iff_forall_not_mem]
  constructor
  · intro none decision member
    by_contra removal
    rw [Bool.not_eq_false] at removal
    exact none decision.span (mem_removedIndices.mpr ⟨decision, member, removal, rfl⟩)
  · intro kept index member
    obtain ⟨decision, inside, removal, -⟩ := mem_removedIndices.mp member
    simp [kept decision inside] at removal

namespace Decision

@[simp] theorem not_isRemoval_retained (decision : Decision) :
    decision.retained.isRemoval = false := by
  unfold retained
  split
  · rfl
  next keeps => simpa using keeps

/-- A decision to remove that is there after one has been retained was there before. -/
theorem mem_of_mem_retainFirst {meant : Decision → Bool} {decisions others : List Decision}
    {decision : Decision} (found : retainFirst meant decisions = some others)
    (member : decision ∈ others) (removal : decision.isRemoval = true) : decision ∈ decisions := by
  induction decisions generalizing others with
  | nil => simp [retainFirst] at found
  | cons first rest ih =>
    rw [retainFirst] at found
    split at found
    · obtain rfl := Option.some.inj found
      rcases List.mem_cons.mp member with rfl | inside
      · simp at removal
      · exact List.mem_cons_of_mem _ inside
    · obtain ⟨later, made, rfl⟩ := Option.map_eq_some_iff.mp found
      rcases List.mem_cons.mp member with rfl | inside
      · exact List.mem_cons_self
      · exact List.mem_cons_of_mem _ (ih made inside)

end Decision

namespace DecisionContext

variable (context : DecisionContext) (index : Nat) (span : Span)

@[simp] theorem span_decisionFor : (context.decisionFor index span).span = index := by
  unfold decisionFor
  split <;> rfl

/-- A candidate is decided to be removed if there is no reason to keep it. -/
theorem isRemoval_decisionFor :
    (context.decisionFor index span).isRemoval = false
      ↔ (context.reasonToKeep? index span).isSome = true := by
  unfold decisionFor
  cases context.reasonToKeep? index span with
  | none => simp [Decision.remove, Decision.isRemoval]
  | some reason => simp [Decision.keep, Decision.isRemoval]

end DecisionContext

/-- The decisions are those for the candidates. -/
theorem mem_classify {language : Language} {options : Options} {spans : List Span}
    {decision : Decision} :
    decision ∈ classify language options spans
      ↔ ∃ index span, spans[index]? = some span
        ∧ DecisionContext.isCandidate ⟨language, options, spans, language.docstringIndices spans⟩
          index span = true
        ∧ decision = DecisionContext.decisionFor
          ⟨language, options, spans, language.docstringIndices spans⟩ index span := by
  simp only [classify, DecisionContext.decisions, List.mem_map, List.mem_filter]
  constructor
  · rintro ⟨⟨span, index⟩, ⟨inside, candidate⟩, rfl⟩
    exact ⟨index, span, List.mem_zipIdx_iff_getElem?.mp inside, candidate, rfl⟩
  · rintro ⟨index, span, found, candidate, rfl⟩
    exact ⟨(span, index), ⟨List.mem_zipIdx_iff_getElem?.mpr found, candidate⟩, rfl⟩

/-- Only candidates are decided about. -/
theorem candidate_of_mem_classify {language : Language} {options : Options} {spans : List Span}
    {decision : Decision} (member : decision ∈ classify language options spans) :
    ∃ span, spans[decision.span]? = some span
      ∧ DecisionContext.isCandidate ⟨language, options, spans, language.docstringIndices spans⟩
        decision.span span = true := by
  obtain ⟨index, span, found, candidate, rfl⟩ := mem_classify.mp member
  rw [DecisionContext.span_decisionFor]
  exact ⟨span, found, candidate⟩

/-- Docstrings are string literals that are statements. -/
theorem isStatementLiteral_of_docstring {language : Language} {spans : List Span} {index : Nat}
    (docstring : index ∈ language.docstringIndices spans) :
    language.hasDocstrings = true ∧ Layout.isStatementLiteral spans index = true := by
  obtain ⟨rule, known, here⟩ := Language.exists_rule_of_docstring docstring
  rw [Option.mem_def] at known
  simp only [HeaderRule.isDocstring, Bool.and_eq_true] at here
  exact ⟨by simp [Language.hasDocstrings, known], here.1⟩

theorem mem_docstringIndices {language : Language} {spans : List Span} {index : Nat}
    {rule : HeaderRule} (known : rule ∈ language.docstrings) :
    index ∈ language.docstringIndices spans ↔ rule.isDocstring spans index = true := by
  rw [Option.mem_def] at known
  simp only [Language.docstringIndices, known, List.mem_filter, List.mem_range,
    and_iff_right_iff_imp]
  intro docstring
  by_contra outside
  rw [Nat.not_lt, ← List.getElem?_eq_none_iff] at outside
  simp [HeaderRule.isDocstring, Layout.isStatementLiteral, outside] at docstring

/-- A candidate is a comment or, in a language with docstrings, a literal that is a statement. -/
theorem isCandidate_iff {language : Language} {options : Options} {spans : List Span} {index : Nat}
    {span : Span} (found : spans[index]? = some span) :
    DecisionContext.isCandidate ⟨language, options, spans, language.docstringIndices spans⟩ index
        span = true
      ↔ span.kind.isComment = true
        ∨ language.hasDocstrings = true ∧ Layout.isStatementLiteral spans index = true := by
  simp only [DecisionContext.isCandidate, Bool.or_eq_true, Bool.and_eq_true, beq_iff_eq,
    List.contains_iff_mem]
  apply or_congr_right
  constructor
  · rintro ⟨⟨-, known⟩, docstring | statement⟩
    · exact isStatementLiteral_of_docstring docstring
    · exact ⟨known, statement⟩
  · rintro ⟨known, statement⟩
    exact ⟨⟨((Layout.isStatementLiteral_iff found).mp statement).1, known⟩, .inr statement⟩

/-- What is removed are the candidates that there is no reason to keep. -/
theorem mem_removedIndices_classify {language : Language} {options : Options} {spans : List Span}
    {index : Nat} :
    index ∈ removedIndices (classify language options spans)
      ↔ ∃ span ∈ spans[index]?, (span.kind.isComment = true
          ∨ language.hasDocstrings = true ∧ Layout.isStatementLiteral spans index = true)
        ∧ DecisionContext.reasonToKeep?
          ⟨language, options, spans, language.docstringIndices spans⟩ index span = none := by
  rw [mem_removedIndices]
  constructor
  · rintro ⟨decision, member, removal, rfl⟩
    obtain ⟨index, span, found, candidate, rfl⟩ := mem_classify.mp member
    rw [DecisionContext.span_decisionFor]
    refine ⟨span, found, (isCandidate_iff found).mp candidate, ?_⟩
    by_contra reason
    have kept := (DecisionContext.isRemoval_decisionFor _ index span).mpr
      (Option.isSome_iff_ne_none.mpr reason)
    simp [kept] at removal
  · rintro ⟨span, found, candidate, none⟩
    refine ⟨_, mem_classify.mpr ⟨index, span, found, (isCandidate_iff found).mpr candidate, rfl⟩,
      ?_, DecisionContext.span_decisionFor _ index span⟩
    rw [← Bool.not_eq_false, DecisionContext.isRemoval_decisionFor, none]
    simp

namespace Analysis

/-- The spans of an analysis, with a mark on those that it removes. -/
def pieces (analysis : Analysis) : List Piece :=
  markRemoved analysis.spans (removedIndices analysis.decisions)

/-- The tokens that an analysis keeps: those that are not blank and not decided to be removed. -/
def kept (analysis : Analysis) : List Token :=
  ((analysis.spans.zipIdx.filter fun entry => !entry.1.kind.isBlank
    && !analysis.decisions.any fun decision => decision.isRemoval && decision.span == entry.2).map
      fun entry => entry.1.token)

theorem map_span_pieces (analysis : Analysis) : analysis.pieces.map Piece.span = analysis.spans :=
  map_span_markRemoved _ _

theorem text_rewritten (analysis : Analysis) :
    analysis.rewritten.text = writeLines analysis.pieces := rfl

theorem kept_eq (analysis : Analysis) : analysis.kept = Piece.contents analysis.pieces := by
  have marked (index : Nat) : (removedIndices analysis.decisions).contains index
      = analysis.decisions.any fun decision => decision.isRemoval && decision.span == index := by
    rw [Bool.eq_iff_iff, List.contains_iff_mem, mem_removedIndices]
    simp
  simp only [kept, Piece.contents, pieces, markRemoved, List.filter_map, List.map_map]
  congr 1
  apply List.filter_congr
  rintro ⟨span, index⟩ -
  simp only [Function.comp, Piece.isContent, marked, Bool.and_comm]

/-- An analysis of the source that removes at most what the rules decide to remove. -/
structure Restricts (language : Language) (options : Options) (source : Text)
    (analysis : Analysis) : Prop where
  scanned : language.spans source = .ok analysis.spans
  removals : ∀ decision ∈ analysis.decisions, decision.isRemoval = true →
    ∃ same ∈ classify language options analysis.spans,
      same.isRemoval = true ∧ same.span = decision.span

variable {language : Language} {options : Options} {source : Text} {analysis : Analysis}

theorem restricts_of_analyze (analyzed : analyze language options source = .ok analysis) :
    analysis.Restricts language options source := by
  unfold analyze at analyzed
  split at analyzed
  next spans scanned =>
    obtain rfl := Except.ok.inj analyzed
    exact ⟨scanned, fun decision member removal => ⟨decision, member, removal, rfl⟩⟩
  · simp at analyzed

/-- An analysis consists of the spans of its source and of what is decided about them. -/
theorem eq_of_analyze (analyzed : analyze language options source = .ok analysis) :
    language.spans source = .ok analysis.spans
      ∧ analysis
        = ⟨language, options, analysis.spans, classify language options analysis.spans⟩ := by
  have scanned := (restricts_of_analyze analyzed).scanned
  exact ⟨scanned, Except.ok.inj (analyzed.symm.trans (analyze_of_spans options scanned))⟩

/-- Without decisions to remove, the source is left as it is. -/
theorem rewritten_of_kept (scanned : language.spans source = .ok analysis.spans)
    (kept : ∀ decision ∈ analysis.decisions, decision.isRemoval = false) :
    analysis.rewritten = ⟨source, 0⟩ := by
  have none := removedIndices_eq_nil_iff.mpr kept
  simp only [rewritten, rewrite, none, List.length_nil, Rewritten.mk.injEq, and_true]
  exact writeLines_unmarked scanned

/-- Retaining a span only ever takes back a removal. -/
theorem Restricts.retain (restricts : analysis.Restricts language options source) (offset : Nat) :
    (analysis.retain offset).Restricts language options source := by
  refine ⟨restricts.scanned, fun decision member removal => ?_⟩
  have original : decision ∈ analysis.decisions := by
    cases found : analysis.decisionsRetaining? offset with
    | none => simpa [Analysis.retain, found] using member
    | some others =>
      have inside : decision ∈ others := by simpa [Analysis.retain, found] using member
      exact Decision.mem_of_mem_retainFirst found inside removal
  exact restricts.removals decision original removal

/-- Whatever is retained, in any order, an analysis removes at most what the rules decide to. -/
theorem Restricts.foldl_retain (restricts : analysis.Restricts language options source)
    (offsets : List Nat) :
    (offsets.foldl Analysis.retain analysis).Restricts language options source := by
  induction offsets generalizing analysis with
  | nil => exact restricts
  | cons offset rest ih => exact ih (restricts.retain offset)

/-- A removed piece is a comment or a literal that is a statement. -/
theorem Restricts.removed (restricts : analysis.Restricts language options source)
    {earlier later : List Piece} {piece : Piece}
    (split : analysis.pieces = earlier ++ piece :: later) (removed : piece.removed = true) :
    piece.span.kind.isComment = true ∨ language.hasDocstrings = true
      ∧ Layout.isStatementLiteral analysis.spans earlier.length = true := by
  obtain ⟨found, marked⟩ := removed_of_markRemoved split
  rw [removed, eq_comm, List.contains_iff_mem, mem_removedIndices] at marked
  obtain ⟨decision, member, removal, index⟩ := marked
  obtain ⟨same, classified, -, there⟩ := restricts.removals decision member removal
  obtain ⟨span, here, candidate⟩ := candidate_of_mem_classify classified
  rw [there, index] at here candidate
  obtain rfl : span = piece.span := Option.some.inj (here.symm.trans found)
  exact (isCandidate_iff here).mp candidate

/-- Before a literal that is a statement there are only blanks on its line. -/
theorem isWhitespace_of_statement {earlier body later : List Piece} {left piece : Piece}
    (split : analysis.pieces = earlier ++ left :: (body ++ piece :: later))
    (statement : Layout.isStatementLiteral analysis.spans (earlier ++ left :: body).length = true)
    (unbroken : ∀ other ∈ left :: body, other.isNewline = false) : left.isWhitespace = true := by
  have whole : analysis.spans = earlier.map Piece.span ++ left.span :: (body.map Piece.span
      ++ (piece :: later).map Piece.span) := by
    rw [← analysis.map_span_pieces, split]
    simp
  have size : (earlier ++ left :: body).length
      = (earlier.map Piece.span ++ left.span :: body.map Piece.span).length := by simp
  simp only [Layout.isStatementLiteral, Bool.and_eq_true] at statement
  have starts := statement.1.1.2
  rw [whole, size] at starts
  have sameLine : ∀ span ∈ left.span :: body.map Piece.span, span.kind ≠ .newline := by
    simpa [Piece.isNewline] using unbroken
  simpa [Piece.isWhitespace] using Layout.whitespace_of_startsLine starts sameLine

/-- The marks of removal make an edit of the source. -/
theorem Restricts.edit (restricts : analysis.Restricts language options source)
    (known : language ∈ Language.registered) : language.Edit source analysis.pieces where
  conventional := Language.conventional_of_registered known
  scanned := by
    rw [analysis.map_span_pieces]
    exact restricts.scanned
  removable := by
    intro piece member removed
    obtain ⟨earlier, later, split⟩ := List.append_of_mem member
    rcases restricts.removed split removed with comment | ⟨docstrings, statement⟩
    · exact .inl comment
    · refine .inr ⟨?_, ?_⟩
      · obtain ⟨found, -⟩ := removed_of_markRemoved split
        exact ((Layout.isStatementLiteral_iff found).mp statement).1
      · -- the known language with docstrings has no regular expressions
        revert docstrings
        exact (by decide : ∀ language ∈ Language.registered,
          language.hasDocstrings = true → language.regexLiterals = false) language known

end Analysis

end CommentStrip
