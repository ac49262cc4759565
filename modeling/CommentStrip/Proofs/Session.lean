import CommentStrip.Proofs.Removal
import Mathlib.Data.List.Dedup

/-!
# Sessions

A user may ask for any spans, in any order and more than once. Each request searches for the first
decision about a span at the byte that was named. Since no two spans start at the same byte and the
decisions are about different spans, the search finds what was meant: of all requests together, what
remains is that the removals they name are undone.
-/
namespace CommentStrip

namespace Decision

@[simp] theorem span_retained (decision : Decision) : decision.retained.span = decision.span := by
  unfold retained
  split <;> rfl

theorem retained_of_kept {decision : Decision} (kept : decision.isRemoval = false) :
    decision.retained = decision := by
  simp [retained, kept]

variable {meant : Decision → Bool} {decisions : List Decision}

/-- The search finds a decision if one is meant. -/
theorem isSome_retainFirst :
    (retainFirst meant decisions).isSome = decisions.any meant := by
  induction decisions with
  | nil => rfl
  | cons decision rest ih =>
    rw [retainFirst, List.any_cons]
    cases meant decision with
    | true => rfl
    | false => simpa using ih

/-- If no two decisions are meant, those that are meant are retained. -/
theorem getD_retainFirst
    (single : decisions.Pairwise fun one two => ¬(meant one = true ∧ meant two = true)) :
    (retainFirst meant decisions).getD decisions
      = decisions.map fun decision => if meant decision then decision.retained else decision := by
  induction decisions with
  | nil => rfl
  | cons decision rest ih =>
    obtain ⟨only, others⟩ := List.pairwise_cons.mp single
    rw [retainFirst, List.map_cons]
    by_cases here : meant decision = true
    · -- none of those after it is meant
      have none : ∀ other ∈ rest, (if meant other then other.retained else other) = other := by
        intro other member
        rw [if_neg fun also => only other member ⟨here, also⟩]
      rw [if_pos here, if_pos here, Option.getD_some, List.map_congr_left none, List.map_id']
    · rw [if_neg here, if_neg here, ← ih others]
      cases retainFirst meant rest <;> rfl

end Decision

/-- Indices of which none is given twice stay as they are. -/
private theorem eraseDups_of_nodup {indices : List Nat} (distinct : indices.Nodup) :
    indices.eraseDups = indices := by
  induction indices with
  | nil => rfl
  | cons index rest ih =>
    obtain ⟨absent, others⟩ := List.nodup_cons.mp distinct
    have kept : rest.filter (fun other => !other == index) = rest := by
      rw [List.filter_eq_self]
      intro other member
      have other : other ≠ index := fun same => absent (same ▸ member)
      simpa using other
    rw [List.eraseDups_cons, kept, ih others]

/-- Spans that follow each other start at later and later bytes. -/
theorem Span.Tiles.starts {place : Nat} {spans : List Span} (tiles : Span.Tiles place spans) :
    (∀ span ∈ spans, place ≤ span.start) ∧ (spans.map Span.start).Pairwise (· < ·) := by
  induction spans generalizing place with
  | nil => exact ⟨by simp, .nil⟩
  | cons span rest ih =>
    obtain ⟨start, stop, nonempty, later⟩ := tiles
    obtain ⟨above, sorted⟩ := ih later
    have positive := List.length_pos_iff.mpr nonempty
    have bytes := Text.length_le_byteLength span.text
    constructor
    · rw [List.forall_mem_cons]
      refine ⟨start.ge, fun other member => ?_⟩
      have := above other member
      omega
    · rw [List.map_cons, List.pairwise_cons, List.forall_mem_map]
      refine ⟨fun other member => ?_, sorted⟩
      have := above other member
      omega

/-- The decisions are about the candidates in their order. -/
theorem pairwise_span_classify (language : Language) (options : Options) (spans : List Span) :
    ((classify language options spans).map Decision.span).Pairwise (· < ·) := by
  have indices : (classify language options spans).map Decision.span
      = (spans.zipIdx.filter fun entry => DecisionContext.isCandidate
        ⟨language, options, spans, language.docstringIndices spans⟩ entry.2 entry.1).map Prod.snd := by
    simp [classify, DecisionContext.decisions, Function.comp_def]
  have whole : (spans.zipIdx.map Prod.snd).Pairwise (· < ·) := by
    rw [List.zipIdx_map_snd]
    exact List.pairwise_lt_range'
  rw [indices]
  exact whole.sublist (List.filter_sublist.map Prod.snd)

namespace Analysis

/-- Each decision is about a span of its own and each span starts at a byte of its own, in order. -/
structure Orderly (analysis : Analysis) : Prop where
  decisions : (analysis.decisions.map Decision.span).Pairwise (· < ·)
  starts : (analysis.spans.map Span.start).Pairwise (· < ·)

/-- The byte at which the span starts that a decision is about. -/
def startOf? (analysis : Analysis) (decision : Decision) : Option Nat :=
  analysis.spans[decision.span]?.map Span.start

/-- Whether the span that a decision is about starts at one of these bytes. -/
def isAmong (analysis : Analysis) (offsets : List Nat) (decision : Decision) : Bool :=
  (analysis.startOf? decision).any fun start => offsets.contains start

/-- The byte at which the span of a decision starts, if it is one of these and the span is to be
removed. -/
def undone? (analysis : Analysis) (offsets : List Nat) (decision : Decision) : Option Nat :=
  if decision.isRemoval then (analysis.startOf? decision).filter (offsets.contains ·) else none

/-- The analysis with every decision about a span at one of these bytes retained. -/
def retaining (analysis : Analysis) (offsets : List Nat) : Analysis :=
  { analysis with
    decisions := analysis.decisions.map fun decision =>
      if analysis.isAmong offsets decision then decision.retained else decision }

variable {analysis : Analysis} {offset : Nat} {offsets : List Nat}

theorem concerns_iff {decision : Decision} :
    analysis.concerns offset decision = true ↔ analysis.startOf? decision = some offset := by
  simp [concerns, startOf?, Option.any_eq_true]

theorem isAmong_iff {decision : Decision} :
    analysis.isAmong offsets decision = true
      ↔ ∃ start, analysis.startOf? decision = some start ∧ start ∈ offsets := by
  simp [isAmong, Option.any_eq_true]

theorem undone?_eq_some_iff {decision : Decision} {start : Nat} :
    analysis.undone? offsets decision = some start
      ↔ decision.isRemoval = true ∧ analysis.startOf? decision = some start ∧ start ∈ offsets := by
  simp [undone?, Option.filter_eq_some_iff]

theorem concerns_eq (decision : Decision) :
    analysis.concerns offset decision = analysis.isAmong [offset] decision := by
  rw [Bool.eq_iff_iff, concerns_iff, isAmong_iff]
  simp

@[simp] theorem isAmong_nil (decision : Decision) : analysis.isAmong [] decision = false := by
  rw [← Bool.not_eq_true, isAmong_iff]
  simp

theorem isAmong_append (first second : List Nat) (decision : Decision) :
    analysis.isAmong (first ++ second) decision
      = (analysis.isAmong first decision || analysis.isAmong second decision) := by
  rw [Bool.eq_iff_iff, Bool.or_eq_true]
  simp only [isAmong_iff, List.mem_append, and_or_left, exists_or]

/-- A decision stays about the same span. -/
theorem isAmong_retained (decision : Decision) :
    analysis.isAmong offsets decision.retained = analysis.isAmong offsets decision := by
  rw [isAmong, isAmong, startOf?, startOf?, Decision.span_retained]

/-- Retaining twice retains what is named either time. -/
theorem retaining_retaining (first second : List Nat) :
    (analysis.retaining first).retaining second = analysis.retaining (first ++ second) := by
  have same (decision : Decision) : (analysis.retaining first).isAmong second decision
      = analysis.isAmong second decision := rfl
  have again (decision : Decision) : decision.retained.retained = decision.retained :=
    Decision.retained_of_kept (Decision.not_isRemoval_retained decision)
  simp only [retaining, List.map_map]
  congr 1
  refine List.map_congr_left fun decision _ => ?_
  change (if (analysis.retaining first).isAmong second _ then _ else _) = _
  rw [same, isAmong_append]
  by_cases here : analysis.isAmong first decision = true
  · simp [here, isAmong_retained, again]
  · simp [here]

namespace Orderly

variable (orderly : analysis.Orderly)
include orderly

/-- Later decisions are about spans that start at later bytes. -/
theorem starts_lt : analysis.decisions.Pairwise fun one two =>
    ∀ first, analysis.startOf? one = some first →
      ∀ second, analysis.startOf? two = some second → first < second := by
  refine (List.pairwise_map.mp orderly.decisions).imp ?_
  intro one two before first found second also
  rw [startOf?, ← List.getElem?_map, List.getElem?_eq_some_iff] at found also
  obtain ⟨inside, rfl⟩ := found
  obtain ⟨alsoInside, rfl⟩ := also
  exact List.pairwise_iff_getElem.mp orderly.starts _ _ inside alsoInside before

/-- One request retains every decision that it concerns, since there is at most one. -/
theorem retain_eq (offset : Nat) : analysis.retain offset = analysis.retaining [offset] := by
  have single : analysis.decisions.Pairwise fun one two =>
      ¬(analysis.concerns offset one = true ∧ analysis.concerns offset two = true) := by
    refine orderly.starts_lt.imp ?_
    rintro one two before ⟨here, also⟩
    exact Nat.lt_irrefl offset
      (before offset (concerns_iff.mp here) offset (concerns_iff.mp also))
  have found := Decision.getD_retainFirst single
  simp only [concerns_eq] at found
  rw [retain, decisionsRetaining?, retaining]
  exact congrArg (Analysis.mk analysis.language analysis.options analysis.spans) found

theorem retaining (offsets : List Nat) : (analysis.retaining offsets).Orderly where
  decisions := by
    have same : (analysis.retaining offsets).decisions.map Decision.span
        = analysis.decisions.map Decision.span := by
      rw [Analysis.retaining, List.map_map]
      refine List.map_congr_left fun decision _ => ?_
      simp only [Function.comp]
      split
      · exact Decision.span_retained decision
      · rfl
    rw [same]
    exact orderly.decisions
  starts := orderly.starts

/-- Requests one after the other retain together what each of them names. -/
theorem foldl_retain_eq (offsets : List Nat) :
    offsets.foldl Analysis.retain analysis = analysis.retaining offsets := by
  induction offsets generalizing analysis with
  | nil => simp [Analysis.retaining]
  | cons offset rest ih =>
    rw [List.foldl_cons, orderly.retain_eq offset, ih (orderly.retaining [offset]),
      retaining_retaining, List.singleton_append]

/-- As many spans are removed as there are decisions to remove. -/
theorem removedCount_eq :
    analysis.rewritten.removedCount = analysis.decisions.countP Decision.isRemoval := by
  have distinct : ((analysis.decisions.filter Decision.isRemoval).map Decision.span).Nodup :=
    (orderly.decisions.sublist (List.filter_sublist.map Decision.span)).imp Nat.ne_of_lt
  rw [rewritten, rewrite, removedIndices, eraseDups_of_nodup distinct, List.length_map,
    List.countP_eq_length_filter]

/-- The removals that are undone are as many as the different bytes among those named at which a
span starts that was to be removed. -/
private theorem countP_undone (offsets : List Nat) :
    analysis.decisions.countP
        (fun decision => decision.isRemoval && analysis.isAmong offsets decision)
      = (offsets.dedup.filter fun offset => analysis.decisions.any fun decision =>
          decision.isRemoval && analysis.concerns offset decision).length := by
  have counted : (analysis.decisions.filterMap (analysis.undone? offsets)).length
      = analysis.decisions.countP
        (fun decision => decision.isRemoval && analysis.isAmong offsets decision) := by
    rw [List.length_filterMap_eq_countP]
    refine List.countP_congr fun decision _ => ?_
    rw [Option.isSome_iff_exists, Bool.and_eq_true, isAmong_iff]
    simp only [undone?_eq_some_iff, exists_and_left]
  -- no two spans start at the same byte, so the bytes listed in their order are all different
  have distinct : (analysis.decisions.filterMap (analysis.undone? offsets)).Nodup := by
    rw [List.Nodup, List.pairwise_filterMap]
    refine orderly.starts_lt.imp fun before start here other also => ?_
    have here := undone?_eq_some_iff.mp here
    have also := undone?_eq_some_iff.mp also
    exact Nat.ne_of_lt (before start here.2.1 other also.2.1)
  rw [← counted]
  refine List.Perm.length_eq ((List.perm_ext_iff_of_nodup distinct
    ((List.nodup_dedup offsets).filter _)).mpr fun start => ?_)
  simp only [List.mem_filterMap, List.mem_filter, List.mem_dedup, List.any_eq_true, undone?_eq_some_iff,
    Bool.and_eq_true, concerns_iff]
  constructor
  · rintro ⟨decision, member, removal, here, named⟩
    exact ⟨named, decision, member, removal, here⟩
  · rintro ⟨named, decision, member, removal, here⟩
    exact ⟨decision, member, removal, here, named⟩

/-- Each byte that is named and at which a span starts that was to be removed takes one removal
back. -/
theorem removedCount_retaining (offsets : List Nat) :
    (analysis.retaining offsets).rewritten.removedCount
        + (offsets.dedup.filter fun offset => analysis.decisions.any fun decision =>
            decision.isRemoval && analysis.concerns offset decision).length
      = analysis.rewritten.removedCount := by
  have stay (decision : Decision) :
      (if analysis.isAmong offsets decision then decision.retained else decision).isRemoval
        = (decision.isRemoval && !analysis.isAmong offsets decision) := by
    cases analysis.isAmong offsets decision <;> simp
  have split := List.countP_eq_countP_filter_add analysis.decisions Decision.isRemoval
    (analysis.isAmong offsets)
  simp only [List.countP_filter] at split
  rw [(orderly.retaining offsets).removedCount_eq, orderly.removedCount_eq, ← orderly.countP_undone,
    Analysis.retaining, List.countP_map, split]
  simp only [Function.comp_def, stay]
  exact Nat.add_comm _ _

end Orderly

variable {language : Language} {options : Options} {source : Text} {initial : Analysis}

theorem orderly_of_analyze (analyzed : analyze language options source = .ok initial) :
    initial.Orderly := by
  obtain ⟨scanned, made⟩ := eq_of_analyze analyzed
  constructor
  · rw [made]
    exact pairwise_span_classify language options initial.spans
  · obtain ⟨-, coalesced⟩ := Language.lex_of_spans scanned
    rw [coalesced]
    exact (Span.tiles_coalesce (language.tiles_lex .start [] source)).starts.2

/-- Each decision is about one of the spans. -/
theorem exists_span_of_analyze (analyzed : analyze language options source = .ok initial)
    {decision : Decision} (member : decision ∈ initial.decisions) :
    ∃ span, initial.spans[decision.span]? = some span := by
  obtain ⟨-, made⟩ := eq_of_analyze analyzed
  rw [made] at member ⊢
  obtain ⟨span, found, -⟩ := candidate_of_mem_classify member
  exact ⟨span, found⟩

/-- Docstrings are never decided to be removed. -/
theorem kept_of_docstring (analyzed : analyze language options source = .ok initial)
    {decision : Decision} (member : decision ∈ initial.decisions)
    (docstring : decision.span ∈ language.docstringIndices initial.spans) :
    decision.isRemoval = false := by
  obtain ⟨-, made⟩ := eq_of_analyze analyzed
  rw [made] at member
  obtain ⟨index, span, found, candidate, rfl⟩ := mem_classify.mp member
  rw [DecisionContext.span_decisionFor] at docstring
  rw [DecisionContext.isRemoval_decisionFor, DecisionContext.reasonToKeep?]
  split
  · rfl
  split
  · rfl
  · rw [if_pos (List.contains_iff_mem.mpr docstring)]
    rfl

/-- A decision of the analysis after requests is one of before, retained or not. -/
theorem mem_retaining {decision : Decision} :
    decision ∈ (initial.retaining offsets).decisions
      ↔ ∃ original ∈ initial.decisions, decision
        = if initial.isAmong offsets original then original.retained else original := by
  simp only [retaining, List.mem_map, eq_comm]

/-- The search succeeds after requests where it would have before. -/
theorem isDecidedAt_retaining (offsets : List Nat) (offset : Nat) :
    (initial.retaining offsets).isDecidedAt offset = true
      ↔ ∃ decision ∈ initial.decisions, ∃ span ∈ initial.spans[decision.span]?,
        span.start = offset := by
  have same (decision : Decision) : (initial.retaining offsets).concerns offset
        (if initial.isAmong offsets decision then decision.retained else decision)
      = initial.concerns offset decision := by
    split
    · rw [concerns, concerns, Decision.span_retained]
      rfl
    · rfl
  rw [isDecidedAt, decisionsRetaining?, Decision.isSome_retainFirst]
  simp only [List.any_eq_true, mem_retaining]
  constructor
  · rintro ⟨_, ⟨decision, member, rfl⟩, found⟩
    rw [same, concerns_iff, startOf?, Option.map_eq_some_iff] at found
    exact ⟨decision, member, found⟩
  · rintro ⟨decision, member, found⟩
    refine ⟨_, ⟨decision, member, rfl⟩, ?_⟩
    rwa [same, concerns_iff, startOf?, Option.map_eq_some_iff]

/-- If all that is listed is asked for, nothing is removed. -/
private theorem kept_of_complete (analyzed : analyze language options source = .ok initial)
    (complete : ∀ comment ∈ initial.comments, comment.span.start ∈ offsets) :
    ∀ decision ∈ (initial.retaining offsets).decisions, decision.isRemoval = false := by
  intro decision member
  obtain ⟨original, inside, rfl⟩ := mem_retaining.mp member
  obtain ⟨span, found⟩ := exists_span_of_analyze analyzed inside
  have listed : (⟨span, original.verdict, original.reason⟩ : Comment) ∈ initial.comments := by
    rw [comments, List.mem_filterMap]
    exact ⟨original, inside, by rw [found]; rfl⟩
  have among : initial.isAmong offsets original = true :=
    isAmong_iff.mpr ⟨span.start, by rw [startOf?, found]; rfl, complete _ listed⟩
  rw [if_pos among]
  exact Decision.not_isRemoval_retained original

/-- What the requests for the spans at some bytes make of the analysis of a source. -/
structure Session (source : Text) (initial : Analysis) (offsets : List Nat) (final : Analysis) :
    Prop where
  spans : final.spans = initial.spans
  ordered : (final.decisions.map Decision.span).Pairwise (· < ·)
  /-- The removals are undone whose span starts at one of the bytes, and nothing else changes. -/
  decisions : final.decisions = initial.decisions.map fun decision =>
    if decision.isRemoval && initial.isAmong offsets decision then
      .keep decision.span .userRetained
    else decision
  /-- The next request finds something if a span that was decided about starts at its byte. -/
  answers : ∀ offset, final.isDecidedAt offset = true
    ↔ ∃ decision ∈ initial.decisions, ∃ span ∈ initial.spans[decision.span]?, span.start = offset
  docstrings : ∀ decision ∈ final.decisions,
    decision.span ∈ initial.language.docstringIndices final.spans → decision.isRemoval = false
  /-- Each of the bytes at which a span starts that was to be removed counts once. -/
  removedCount : final.rewritten.removedCount
      + (offsets.dedup.filter fun offset => initial.decisions.any fun decision =>
          decision.isRemoval && initial.concerns offset decision).length
    = initial.rewritten.removedCount
  /-- If all that is listed was asked for, the source is left as it is. -/
  complete : (∀ comment ∈ initial.comments, comment.span.start ∈ offsets) →
    final.rewritten = ⟨source, 0⟩

/--
Whatever spans a user asks for, one after the other, an analysis of a source stays in order, the
removals that were named are undone and nothing else changes. The order of the requests and their
repetition do not matter.
-/
theorem session_of_requests (analyzed : analyze language options source = .ok initial)
    (offsets : List Nat) :
    Session source initial offsets (offsets.foldl Analysis.retain initial)
      ∧ ∀ others : List Nat, (∀ offset, offset ∈ others ↔ offset ∈ offsets) →
        others.foldl Analysis.retain initial = offsets.foldl Analysis.retain initial := by
  have orderly := orderly_of_analyze analyzed
  obtain ⟨scanned, made⟩ := eq_of_analyze analyzed
  rw [orderly.foldl_retain_eq]
  refine ⟨⟨rfl, (orderly.retaining offsets).decisions, ?_, isDecidedAt_retaining offsets, ?_,
    orderly.removedCount_retaining offsets, ?_⟩, ?_⟩
  · -- what is retained without being removed stays as it is
    refine List.map_congr_left fun decision _ => ?_
    by_cases among : initial.isAmong offsets decision = true
    · cases removal : decision.isRemoval with
      | true => simp [among, Decision.retained, removal]
      | false => simp [Decision.retained_of_kept removal]
    · simp [among]
  · intro decision member docstring
    obtain ⟨original, inside, rfl⟩ := mem_retaining.mp member
    split
    · exact Decision.not_isRemoval_retained original
    next among =>
      rw [if_neg among, made] at docstring
      exact kept_of_docstring analyzed inside docstring
  · exact fun complete => rewritten_of_kept scanned (kept_of_complete analyzed complete)
  · -- what is retained depends on which bytes were named, and on nothing else
    intro others same
    rw [orderly.foldl_retain_eq, retaining, retaining]
    congr 1
    refine List.map_congr_left fun decision _ => ?_
    have alike : initial.isAmong others decision = initial.isAmong offsets decision := by
      rw [Bool.eq_iff_iff, isAmong_iff, isAmong_iff]
      simp only [same]
    rw [alike]

/-- A trailing comment is asked for twice and a directive once, and at one byte there is nothing. -/
theorem session_of_repeated_requests :
    ∃ initial, analyze .python .standard "#!a\nx#b\n'c'\n#d".toList = .ok initial
      ∧ Session "#!a\nx#b\n'c'\n#d".toList initial [5, 99, 5, 0]
        ([5, 99, 5, 0].foldl Analysis.retain initial)
      ∧ [0, 5, 99].foldl Analysis.retain initial = [5, 99, 5, 0].foldl Analysis.retain initial
      ∧ ([5, 99, 5, 0].foldl Analysis.retain initial).rewritten = ⟨"#!a\nx#b\n".toList, 2⟩ := by
  have scanned : Language.python.spans "#!a\nx#b\n'c'\n#d".toList
      = .ok [⟨.lineComment, 0, 3, 1, 1, "#!a".toList⟩, ⟨.newline, 3, 4, 1, 4, "\n".toList⟩,
        ⟨.code, 4, 5, 2, 1, "x".toList⟩, ⟨.lineComment, 5, 7, 2, 2, "#b".toList⟩,
        ⟨.newline, 7, 8, 2, 4, "\n".toList⟩, ⟨.stringLiteral, 8, 11, 3, 1, "'c'".toList⟩,
        ⟨.newline, 11, 12, 3, 4, "\n".toList⟩, ⟨.lineComment, 12, 14, 4, 1, "#d".toList⟩] := by
    rw [Language.spans_eq_lexWithin]
    decide +kernel
  have analyzed := analyze_of_spans .standard scanned
  obtain ⟨session, anyOrder⟩ := session_of_requests analyzed [5, 99, 5, 0]
  refine ⟨_, analyzed, session, anyOrder [0, 5, 99] fun offset => ?_, by decide +kernel⟩
  simp only [List.mem_cons, List.not_mem_nil, or_false]
  omega

end Analysis

end CommentStrip
