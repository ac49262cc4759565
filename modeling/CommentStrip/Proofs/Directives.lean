import CommentStrip.Proofs.Origin
import CommentStrip.Proofs.Preservation
import Mathlib.Data.List.Forall2

/-!
# Directives

A line comment may name the interpreter of a Python source or declare its encoding. Such directives
are kept, and they are found again in the rewritten text, in the same order: what comes to stand
before one is left of what stood before it, so it is no further from the start and in a header line
if it was in one. The interpreter comes first among the reasons, so a declaration that begins with
`#!` counts as an interpreter directive once everything before it is gone.
-/
namespace CommentStrip

/-- Whether a line comment is kept for naming the interpreter or declaring the encoding. -/
def Comment.isDirective (comment : Comment) : Bool :=
  comment.span.kind == .lineComment && comment.verdict == .keep
    && (comment.reason == .interpreterDirective || comment.reason == .encodingDirective)

/-- The directives of a source, in order. -/
def Analysis.directives (analysis : Analysis) : List Comment :=
  analysis.comments.filter Comment.isDirective

/-- How a directive is found again. Its text and the reason to keep it are the same, except that a
declaration of an encoding which begins like an interpreter directive is one at the start. -/
structure Remains (comment again : Comment) : Prop where
  kind : again.span.kind = .lineComment
  text : again.span.text = comment.span.text
  verdict : again.verdict = .keep
  reason : again.reason
    = if comment.reason = .encodingDirective ∧ again.span.start = 0
        ∧ "#!".toList.isPrefixOf comment.span.text = true then
      .interpreterDirective
    else comment.reason

namespace DecisionContext

variable (context : DecisionContext)

/-- The candidate at `index` with what is decided about it. -/
def commentFor (index : Nat) (span : Span) : Comment :=
  ⟨span, (context.decisionFor index span).verdict, (context.decisionFor index span).reason⟩

/-- The directive that a span is, if it is one. -/
def directive? (span : Span) : Option Comment :=
  if isInterpreterDirective span then some ⟨span, .keep, .interpreterDirective⟩
  else if context.isEncodingDirective span then some ⟨span, .keep, .encodingDirective⟩
  else none

variable {context} {span : Span} {comment : Comment}

theorem kind_of_interpreter (directive : isInterpreterDirective span = true) :
    span.kind = .lineComment := by
  simp only [isInterpreterDirective, Bool.and_eq_true, beq_iff_eq] at directive
  exact directive.1.1

theorem kind_of_encoding (directive : context.isEncodingDirective span = true) :
    span.kind = .lineComment := by
  simp only [isEncodingDirective, Bool.and_eq_true, beq_iff_eq] at directive
  exact directive.1.1

/-- A line comment that is kept for the reason of a directive is a candidate. -/
private theorem kept_iff {reason : Reason} (index : Nat) (kind : span.kind = .lineComment)
    (directive : reason = .interpreterDirective ∨ reason = .encodingDirective) :
    some ⟨span, .keep, reason⟩ = some comment
      ↔ context.isCandidate index span = true ∧ comment.isDirective = true
        ∧ ⟨span, .keep, reason⟩ = comment := by
  rw [Option.some.injEq]
  constructor
  · rintro rfl
    exact ⟨by simp [isCandidate, kind, Kind.isComment],
      by simp [Comment.isDirective, kind, directive], rfl⟩
  · exact fun found => found.2.2

/-- A directive is a candidate that is kept as one. -/
theorem directive?_eq_some_iff (index : Nat) : context.directive? span = some comment
    ↔ context.isCandidate index span = true ∧ comment.isDirective = true
      ∧ context.commentFor index span = comment := by
  rw [directive?, commentFor, decisionFor, reasonToKeep?]
  by_cases interpreter : isInterpreterDirective span = true
  · rw [if_pos interpreter, if_pos interpreter]
    exact kept_iff index (kind_of_interpreter interpreter) (.inl rfl)
  rw [if_neg interpreter, if_neg interpreter]
  by_cases encoding : context.isEncodingDirective span = true
  · rw [if_pos encoding, if_pos encoding]
    exact kept_iff index (kind_of_encoding encoding) (.inr rfl)
  rw [if_neg encoding, if_neg encoding]
  -- no other rule gives the reason of a directive
  refine iff_of_false nofun ?_
  rintro ⟨-, directive, rfl⟩
  revert directive
  split_ifs <;> simp [Comment.isDirective, Decision.keep, Decision.remove]

theorem kind_of_directive (directive : context.directive? span = some comment) :
    span.kind = .lineComment := by
  obtain ⟨-, kept, rfl⟩ := (directive?_eq_some_iff 0).mp directive
  simp only [Comment.isDirective, Bool.and_eq_true, beq_iff_eq] at kept
  exact kept.1.1

theorem directive?_of_blank (blank : span.kind.isBlank = true) :
    context.directive? span = none := by
  rw [Option.eq_none_iff_forall_ne_some]
  intro comment directive
  simp [kind_of_directive directive, Kind.isBlank] at blank

end DecisionContext

namespace Analysis

/-- What the decisions of an analysis depend on. -/
def context (analysis : Analysis) : DecisionContext :=
  ⟨analysis.language, analysis.options, analysis.spans,
    analysis.language.docstringIndices analysis.spans⟩

variable {language : Language} {options : Options} {source : Text} {analysis : Analysis}

theorem reanalyze_eq (analyzed : analyze language options source = .ok analysis) :
    analysis.reanalyze = analyze language options analysis.rewritten.text := by
  rw [reanalyze, (eq_of_analyze analyzed).2]

/-- The candidates are listed with what is decided about them. -/
theorem comments_eq (analyzed : analyze language options source = .ok analysis) :
    analysis.comments
      = (analysis.spans.zipIdx.filter fun entry => analysis.context.isCandidate entry.2 entry.1).map
        fun entry => analysis.context.commentFor entry.2 entry.1 := by
  have made : analysis.decisions = analysis.context.decisions := by
    obtain ⟨-, made⟩ := eq_of_analyze analyzed
    rw [made]
    rfl
  rw [comments, made, DecisionContext.decisions, List.filterMap_map, ← List.filterMap_eq_map]
  refine List.filterMap_congr fun entry member => ?_
  have found : analysis.spans[entry.2]? = some entry.1 :=
    List.mem_zipIdx_iff_getElem?.mp (List.mem_of_mem_filter member)
  simp only [Function.comp_apply, DecisionContext.span_decisionFor, found, Option.map_some]
  rfl

/-- The directives are the spans that are, in their order. -/
theorem directives_eq (analyzed : analyze language options source = .ok analysis) :
    analysis.directives = analysis.spans.filterMap analysis.context.directive? := by
  have whole : analysis.spans = analysis.spans.zipIdx.map Prod.fst :=
    (List.zipIdx_map_fst 0 analysis.spans).symm
  rw [directives, comments_eq analyzed]
  conv_rhs => rw [whole]
  rw [List.filterMap_map, ← List.filterMap_eq_filter, List.filterMap_map, List.filterMap_filter]
  refine List.filterMap_congr fun entry _ => Option.ext fun comment => ?_
  simp only [Function.comp_apply, DecisionContext.directive?_eq_some_iff entry.2]
  by_cases candidate : analysis.context.isCandidate entry.2 entry.1 = true
  · simp only [candidate, if_true, Option.guard_eq_some_iff, true_and]
    constructor
    · rintro ⟨rfl, directive⟩
      exact ⟨directive, rfl⟩
    · rintro ⟨directive, rfl⟩
      exact ⟨rfl, directive⟩
  · simp [candidate]

/-- What is no longer there was no directive. -/
theorem directive?_of_gone (analyzed : analyze language options source = .ok analysis)
    {piece : Piece} (member : piece ∈ analysis.pieces) (gone : piece.isContent = false) :
    analysis.context.directive? piece.span = none := by
  rw [Option.eq_none_iff_forall_ne_some]
  intro comment directive
  have removed : piece.removed = true := by
    simpa [Piece.isContent, DecisionContext.kind_of_directive directive, Kind.isBlank] using gone
  obtain ⟨-, made⟩ := eq_of_analyze analyzed
  obtain ⟨earlier, later, split⟩ := List.append_of_mem member
  obtain ⟨found, marked⟩ := removed_of_markRemoved split
  rw [removed, eq_comm, List.contains_iff_mem, made, mem_removedIndices_classify] at marked
  obtain ⟨span, same, -, commentary⟩ := marked
  obtain rfl : span = piece.span := Option.some.inj (same.symm.trans found)
  have unreasoned : analysis.context.reasonToKeep? earlier.length piece.span = none := by
    rw [made]
    exact commentary
  obtain ⟨-, kept, rfl⟩ := (DecisionContext.directive?_eq_some_iff earlier.length).mp directive
  simp [DecisionContext.commentFor, DecisionContext.decisionFor, unreasoned, Comment.isDirective,
    Decision.remove] at kept

end Analysis

section Remaining

variable {language : Language} {source text : Text} {context other : DecisionContext}
  {pieces rest : List Piece} {tokens : List Token} {before after later : List Span}
  {span found : Span} {comment : Comment}

/-- A directive is one again where thinned pieces stand before it. -/
theorem exists_remains (scanned : language.spans source = .ok context.spans)
    (again : language.spans text = .ok other.spans)
    (split : context.spans = pieces.map Piece.span ++ span :: later)
    (place : other.spans = before ++ found :: after) (same : span.token = found.token)
    (thinned : Thinned pieces (before.map Span.token))
    (directive : context.directive? span = some comment) :
    ∃ there, other.directive? found = some there ∧ Remains comment there := by
  have kind : found.kind = .lineComment :=
    (congrArg Token.kind same).symm.trans (DecisionContext.kind_of_directive directive)
  have text : found.text = span.text := (congrArg Token.text same).symm
  rw [DecisionContext.directive?] at directive ⊢
  split at directive
  next interpreter =>
    obtain rfl := Option.some.inj directive
    have first (none : pieces.map Piece.span = []) : before = [] := by
      rw [List.map_eq_nil_iff] at none
      subst none
      exact List.map_eq_nil_iff.mp thinned.eq_nil
    rw [if_pos (isInterpreterDirective_of_first (split ▸ scanned) (place ▸ again) same first
      interpreter)]
    -- it was not kept as a declaration of an encoding, so the exception is not about it
    exact ⟨_, rfl, kind, text, rfl, by simp⟩
  split at directive
  next encoding =>
    obtain rfl := Option.some.inj directive
    have header (past : Token.PastHeader (before.map Span.token)) :
        Token.PastHeader ((pieces.map Piece.span).map Span.token) := by
      rw [List.map_map]
      exact thinned.pastHeader past
    have start : DecisionContext.isInterpreterDirective found = true
        ↔ found.start = 0 ∧ "#!".toList.isPrefixOf span.text = true := by
      simp [DecisionContext.isInterpreterDirective, kind, text]
    rw [if_pos (isEncodingDirective_of_header scanned again split place same header encoding)]
    -- the interpreter comes first among the rules
    split
    next now => exact ⟨_, rfl, kind, text, rfl, (if_pos ⟨rfl, start.mp now⟩).symm⟩
    next now => exact ⟨_, rfl, kind, text, rfl, (if_neg fun all => now (start.mpr all.2)).symm⟩
  · simp at directive

/-- If what the first item gives remains, it may be followed by what remains of the rest. -/
private theorem sublist_filterMap_cons {f : Span → Option Comment} {g : Span → Option Comment}
    {spans others : List Span}
    (here : ∀ comment, f span = some comment →
      ∃ there, g found = some there ∧ Remains comment there)
    (onward : List.SublistForall₂ Remains (spans.filterMap f) (others.filterMap g)) :
    List.SublistForall₂ Remains ((span :: spans).filterMap f) ((found :: others).filterMap g) := by
  cases directive : f span with
  | some comment =>
    obtain ⟨there, listed, remains⟩ := here comment directive
    rw [List.filterMap_cons_some directive, List.filterMap_cons_some listed]
    exact .cons remains onward
  | none =>
    rw [List.filterMap_cons_none directive]
    cases fresh : g found with
    | none => rwa [List.filterMap_cons_none fresh]
    | some there =>
      rw [List.filterMap_cons_some fresh]
      exact onward.cons_right

/-- From a place in the source and in the rewritten text on, the directives are found again in
order. -/
theorem sublist_remains (scanned : language.spans source = .ok context.spans)
    (again : language.spans text = .ok other.spans) (laid : Laid pieces rest tokens)
    (nonempty : ∀ token ∈ tokens, token.text ≠ [])
    (gone : ∀ piece ∈ rest, piece.isContent = false → context.directive? piece.span = none)
    (split : context.spans = (pieces ++ rest).map Piece.span)
    (place : other.spans = before ++ after) (made : after.map Span.token = tokens)
    (thinned : Thinned pieces (before.map Span.token)) :
    List.SublistForall₂ Remains ((rest.map Piece.span).filterMap context.directive?)
      (after.filterMap other.directive?) := by
  have without {gap : List Piece} (empty : ∀ piece ∈ gap, piece.isContent = false)
      (gone : ∀ piece ∈ gap, piece.isContent = false → context.directive? piece.span = none) :
      (gap.map Piece.span).filterMap context.directive? = [] := by
    rw [List.filterMap_eq_nil_iff, List.forall_mem_map]
    exact fun piece member => gone piece member (empty piece member)
  -- on the kept pieces; what stands before each is thinned to what stands before its span
  induction laid generalizing before after with
  | rest empty blank seam =>
    rw [without empty gone]
    exact .nil
  | @next earlier gap later next blanks tokens empty content blank seam laid ih =>
    -- the spans after the place are those of the seam and then that of the kept piece
    obtain ⟨bridge, _, rfl, rfl, more⟩ := List.map_eq_append_iff.mp made
    obtain ⟨found, behind, rfl, same, rfl⟩ := List.map_eq_cons_iff.mp more
    rw [List.forall_mem_append, List.forall_mem_cons] at nonempty gone
    have source : context.spans
        = (earlier ++ gap).map Piece.span ++ next.span :: later.map Piece.span := by simp [split]
    have rewritten : other.spans = before ++ bridge ++ found :: behind := by simp [place]
    have upTo : Thinned (earlier ++ gap) ((before ++ bridge).map Span.token) := by
      rw [List.map_append]
      exact thinned.append (thinned_of_seam blank nonempty.1 seam)
    have onward : List.SublistForall₂ Remains ((later.map Piece.span).filterMap context.directive?)
        (behind.filterMap other.directive?) := by
      refine @ih (before ++ bridge ++ [found]) behind nonempty.2.2 gone.2.2 (by simp [source])
        (by simp [rewritten]) rfl ?_
      rw [List.map_append, List.map_singleton, same]
      exact upTo.append (thinned_singleton content)
    have noneBetween : bridge.filterMap other.directive? = [] := by
      rw [List.filterMap_eq_nil_iff]
      exact fun span member =>
        DecisionContext.directive?_of_blank (blank span.token (List.mem_map_of_mem member))
    rw [List.map_append, List.filterMap_append, without empty gone.1, List.filterMap_append,
      noneBetween, List.nil_append, List.nil_append, List.map_cons]
    refine sublist_filterMap_cons (fun comment directive => ?_) onward
    exact exists_remains scanned again source rewritten same.symm upTo directive

end Remaining

/--
The directives of a Python source are found again among those of the rewritten text, in the same
order, with the same texts and for the same reasons, except that a declaration of an encoding which
begins with `#!` is an interpreter directive once it has come to stand at the start.
-/
theorem directives_remain {options : Options} {source : Text} {analysis : Analysis}
    (analyzed : analyze .python options source = .ok analysis) :
    ∃ again, analysis.reanalyze = .ok again
      ∧ ∃ found, found.Sublist again.directives
        ∧ List.Forall₂ Remains analysis.directives found := by
  have restricts := Analysis.restricts_of_analyze analyzed
  obtain ⟨spans, scanned, laid, nonempty⟩ := exists_laid_of_python restricts
  obtain ⟨again, reanalyzed, rfl⟩ : ∃ again,
      analyze .python options analysis.rewritten.text = .ok again ∧ again.spans = spans :=
    ⟨_, analyze_of_spans options scanned, rfl⟩
  refine ⟨again, (Analysis.reanalyze_eq analyzed).trans reanalyzed, ?_⟩
  have source : Language.python.spans source = .ok analysis.context.spans := restricts.scanned
  have rewritten : Language.python.spans analysis.rewritten.text = .ok again.context.spans :=
    scanned
  have start : again.context.spans = [] ++ again.spans := rfl
  have remain := sublist_remains source rewritten laid nonempty
    (fun piece member => Analysis.directive?_of_gone analyzed member) analysis.map_span_pieces.symm start rfl
    thinned_nil
  rw [analysis.map_span_pieces, ← Analysis.directives_eq analyzed, ← Analysis.directives_eq reanalyzed,
    List.sublistForall₂_iff] at remain
  obtain ⟨found, alike, inside⟩ := remain
  exact ⟨found, inside, alike⟩

/-- A literal before a declaration goes, and what comes after it. -/
theorem directives_remain_after_literal :
    ∃ analysis, analyze .python .standard "x\n'b' #coding:c\n#d".toList = .ok analysis
      ∧ analysis.directives
        = [⟨⟨.lineComment, 6, 15, 2, 5, "#coding:c".toList⟩, .keep, .encodingDirective⟩]
      ∧ analysis.rewritten.text = "x\n#coding:c\n".toList
      ∧ ∃ again, analysis.reanalyze = .ok again
        ∧ ∃ found, found.Sublist again.directives
          ∧ List.Forall₂ Remains analysis.directives found := by
  have scanned : Language.python.spans "x\n'b' #coding:c\n#d".toList
      = .ok [⟨.code, 0, 1, 1, 1, "x".toList⟩, ⟨.newline, 1, 2, 1, 2, "\n".toList⟩,
        ⟨.stringLiteral, 2, 5, 2, 1, "'b'".toList⟩, ⟨.whitespace, 5, 6, 2, 4, " ".toList⟩,
        ⟨.lineComment, 6, 15, 2, 5, "#coding:c".toList⟩, ⟨.newline, 15, 16, 2, 14, "\n".toList⟩,
        ⟨.lineComment, 16, 18, 3, 1, "#d".toList⟩] := by
    rw [Language.spans_eq_lexWithin]
    decide +kernel
  have analyzed := analyze_of_spans .standard scanned
  exact ⟨_, analyzed, by decide +kernel, by decide +kernel, directives_remain analyzed⟩

/-- Once the comment before it is gone, the declaration begins the text like an interpreter
directive. -/
theorem declaration_becomes_interpreter :
    ∃ analysis, analyze .python .standard "#a\n#!coding:b".toList = .ok analysis
      ∧ analysis.directives
        = [⟨⟨.lineComment, 3, 13, 2, 1, "#!coding:b".toList⟩, .keep, .encodingDirective⟩]
      ∧ ¬∃ again, analysis.reanalyze = .ok again
        ∧ ∃ found, found.Sublist again.comments
          ∧ List.Forall₂ (fun comment there => there.span.kind = .lineComment
              ∧ there.span.text = comment.span.text ∧ there.verdict = .keep
              ∧ there.reason = comment.reason) analysis.directives found := by
  have scanned : Language.python.spans "#a\n#!coding:b".toList
      = .ok [⟨.lineComment, 0, 2, 1, 1, "#a".toList⟩, ⟨.newline, 2, 3, 1, 3, "\n".toList⟩,
        ⟨.lineComment, 3, 13, 2, 1, "#!coding:b".toList⟩] := by
    rw [Language.spans_eq_lexWithin]
    decide +kernel
  have rescanned : Language.python.spans "#!coding:b".toList
      = .ok [⟨.lineComment, 0, 10, 1, 1, "#!coding:b".toList⟩] := by
    rw [Language.spans_eq_lexWithin]
    decide +kernel
  obtain ⟨analysis, analyzed, listed, text⟩ : ∃ analysis,
      analyze .python .standard "#a\n#!coding:b".toList = .ok analysis
        ∧ analysis.directives
          = [⟨⟨.lineComment, 3, 13, 2, 1, "#!coding:b".toList⟩, .keep, .encodingDirective⟩]
        ∧ analysis.rewritten.text = "#!coding:b".toList :=
    ⟨_, analyze_of_spans .standard scanned, by decide +kernel, by decide +kernel⟩
  refine ⟨analysis, analyzed, listed, ?_⟩
  rintro ⟨again, reanalyzed, found, inside, alike⟩
  rw [Analysis.reanalyze_eq analyzed, text, analyze_of_spans .standard rescanned,
    Except.ok.injEq] at reanalyzed
  have only : again.comments
      = [⟨⟨.lineComment, 0, 10, 1, 1, "#!coding:b".toList⟩, .keep, .interpreterDirective⟩] := by
    subst reanalyzed
    decide +kernel
  rw [listed] at alike
  obtain ⟨there, rest, here, -, rfl⟩ := List.forall₂_cons_left_iff.mp alike
  have member := inside.subset List.mem_cons_self
  rw [only, List.mem_singleton] at member
  subst member
  exact absurd here.2.2.2 (by decide)

end CommentStrip
