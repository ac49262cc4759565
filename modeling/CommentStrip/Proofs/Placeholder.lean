import CommentStrip.Proofs.Headers

/-!
# Literals that hold their blocks open

A literal on its own is kept if its block would be empty without it and the literals after it. Those
after it go, so that in the rewritten text something else comes next. If this is indented less, the
block ends there as well, and the literal holds it open once more.
-/
namespace CommentStrip

/-- What stays and comes next after the span at `index`, blanks and comments apart, is indented less. -/
def EndsBlock (analysis : Analysis) (index : Nat) : Prop :=
  ∀ next ∈ (DecisionContext.significantAfter analysis.spans index).find?
      (!(removedIndices analysis.decisions).contains ·),
    Layout.indentation analysis.spans next < Layout.indentation analysis.spans index

/-- The block ends after each literal that is kept only because it would be empty without it. -/
def PlaceholdersEndBlocks (analysis : Analysis) : Prop :=
  ∀ decision ∈ analysis.decisions, decision.reason = .blockPlaceholder →
    EndsBlock analysis decision.span

instance (analysis : Analysis) (index : Nat) : Decidable (EndsBlock analysis index) :=
  inferInstanceAs (Decidable (∀ next ∈ (DecisionContext.significantAfter analysis.spans index).find?
      (!(removedIndices analysis.decisions).contains ·),
    Layout.indentation analysis.spans next < Layout.indentation analysis.spans index))

instance (analysis : Analysis) : Decidable (PlaceholdersEndBlocks analysis) :=
  inferInstanceAs (Decidable (∀ decision ∈ analysis.decisions, decision.reason = .blockPlaceholder →
    EndsBlock analysis decision.span))

namespace DecisionContext

variable {before after spans : List Span} {span : Span} {next indent : Nat} {indices : List Nat}

/-- A block is left empty if what comes first is indented less. -/
theorem blockEndsEmpty_of_head
    (ends : ∀ next ∈ indices.head?, Layout.indentation spans next < indent) :
    blockEndsEmpty spans indent indices = true := by
  cases indices with
  | nil => rfl
  | cons first rest => rw [blockEndsEmpty, if_pos (ends first rfl)]

/-- The first significant span after another has none between the two. -/
theorem exists_split_of_head
    (first : next ∈ (significantAfter (before ++ span :: after) before.length).head?) :
    ∃ inner found rest, after = inner ++ found :: rest ∧ next = (before ++ span :: inner).length
      ∧ found.isSignificant = true ∧ ∀ other ∈ inner, other.isSignificant = false := by
  have sorted := sorted_significantAfter (before ++ span :: after) before.length
  obtain ⟨rest, indices⟩ := List.head?_eq_some_iff.mp first
  obtain ⟨later, found, here, significant⟩ := mem_significantAfter.mp (List.mem_of_head? first)
  obtain ⟨distance, rfl⟩ := Nat.exists_eq_add_of_lt later
  rw [List.getElem?_append_right (by omega), Nat.add_assoc, Nat.add_sub_cancel_left,
    List.getElem?_cons_succ] at here
  obtain ⟨inner, more, rfl, rfl⟩ := exists_split_of_getElem? here
  refine ⟨inner, found, more, rfl, by simp [Nat.add_assoc], significant, fun other member => ?_⟩
  by_contra solid
  rw [Bool.not_eq_false] at solid
  obtain ⟨nearest, others, rfl⟩ := List.append_of_mem member
  have whole : before ++ span :: (nearest ++ other :: others ++ found :: more)
      = (before ++ span :: nearest) ++ other :: (others ++ found :: more) := by simp
  have place : (before ++ span :: (nearest ++ other :: others ++ found :: more))[
      (before ++ span :: nearest).length]? = some other := by
    rw [whole, List.getElem?_append_right (Nat.le_refl _), Nat.sub_self, List.getElem?_cons_zero]
  -- a nearer one would come first
  have further : before.length < (before ++ span :: nearest).length := by simp
  have nearer := mem_significantAfter.mpr ⟨further, other, place, solid⟩
  rw [indices] at nearer sorted
  simp only [List.length_append, List.length_cons] at nearer sorted
  rcases List.mem_cons.mp nearer with same | beyond
  · omega
  · have := (List.pairwise_cons.mp sorted).1 _ beyond
    omega

end DecisionContext

section Python

variable {options : Options} {source : Text} {analysis : Analysis} {earlier passed later : List Piece}
  {literal next : Piece} {before inner after : List Span} {span found : Span}

/-- Where no span of the rewritten text is significant, no kept piece is. -/
theorem removed_of_contents {spans : List Span} {gap : List Piece}
    (contents : Token.contents (spans.map Span.token) = Piece.contents gap)
    (plain : ∀ span ∈ spans, span.isSignificant = false) :
    ∀ piece ∈ gap, piece.span.isSignificant = true → piece.removed = true := by
  intro piece member significant
  by_contra kept
  have solid := ((Span.isSignificant_iff piece.span).mp significant).1
  have inside : piece.span.token ∈ Piece.contents gap :=
    List.mem_map.mpr ⟨piece, List.mem_filter.mpr ⟨member, by simp [Piece.isContent, kept, solid]⟩, rfl⟩
  rw [← contents] at inside
  obtain ⟨span, within, same⟩ := List.mem_map.mp (List.mem_of_mem_filter inside)
  have kind : span.kind = piece.span.kind := congrArg Token.kind same
  have other := plain span within
  rw [Span.isSignificant, kind] at other
  simp [Span.isSignificant, other] at significant

/-- In a list in order, the first one that is found is the least. -/
private theorem find?_eq_some_of_sorted {indices : List Nat} {index : Nat} {p : Nat → Bool}
    (sorted : indices.Pairwise (· < ·)) (member : index ∈ indices) (found : p index = true)
    (least : ∀ other ∈ indices, other < index → p other = false) : indices.find? p = some index := by
  obtain ⟨first, second, rfl⟩ := List.append_of_mem member
  refine List.find?_eq_some_iff_append.mpr ⟨found, first, second, rfl, fun other inside => ?_⟩
  have below := (List.pairwise_append.mp sorted).2.2 other inside index List.mem_cons_self
  simpa using least other (by simp [inside]) below

/-- The first significant piece that stays after another one. -/
theorem find?_kept (split : analysis.pieces = earlier ++ literal :: (passed ++ next :: later))
    (kept : next.removed = false) (significant : next.span.isSignificant = true)
    (gone : ∀ piece ∈ passed, piece.span.isSignificant = true → piece.removed = true) :
    (DecisionContext.significantAfter analysis.spans earlier.length).find?
        (!(removedIndices analysis.decisions).contains ·)
      = some (earlier ++ literal :: passed).length := by
  have whole : analysis.pieces = (earlier ++ literal :: passed) ++ next :: later := by simp [split]
  obtain ⟨here, marked⟩ := removed_of_markRemoved whole
  have size : (earlier ++ literal :: passed).length = earlier.length + passed.length + 1 := by
    simp [Nat.add_assoc]
  refine find?_eq_some_of_sorted (DecisionContext.sorted_significantAfter _ _)
    (DecisionContext.mem_significantAfter.mpr ⟨by omega, next.span, here, significant⟩)
    (by rw [← marked, kept, Bool.not_false]) fun other member nearer => ?_
  obtain ⟨beyond, span, found, solid⟩ := DecisionContext.mem_significantAfter.mp member
  obtain ⟨distance, rfl⟩ := Nat.exists_eq_add_of_lt beyond
  have there := getElem?_pieces analysis (earlier.length + distance + 1)
  have onward : earlier.length + distance + 1 - earlier.length = distance + 1 := by omega
  rw [split, List.getElem?_append_right (by omega), onward, List.getElem?_cons_succ,
    List.getElem?_append_left (by omega), found, Option.map_some] at there
  simpa using gone _ (List.mem_of_getElem? there) solid

/-- A kept piece that starts its line is indented in the rewritten text as it was. -/
theorem indentation_of_found (restricts : analysis.Restricts .python options source)
    (scanned : Language.python.spans analysis.rewritten.text = .ok (before ++ span :: after))
    (split : analysis.pieces = earlier ++ literal :: later)
    (found : Found (earlier ++ [literal]) (before ++ [span]))
    (start : ∃ lines blanks, earlier = lines ++ blanks ∧ LineStart lines blanks) :
    Layout.indentation (before ++ span :: after) before.length
      = Layout.indentation analysis.spans earlier.length := by
  obtain ⟨lines, blanks, rfl, start⟩ := start
  have known : Language.python ∈ Language.registered := by simp [Language.registered]
  have edit := restricts.edit known
  rw [split] at edit
  rw [Analysis.text_rewritten, split] at scanned
  rw [(start.indentation_eq known edit found.content scanned found.token_eq found.contents_before).2,
    ← split, analysis.map_span_pieces]

/-- The first significant span after a kept literal is the first significant one that stays after it, and
it is indented as it was. -/
theorem exists_next_of_found (restricts : analysis.Restricts .python options source)
    (scanned : Language.python.spans analysis.rewritten.text
      = .ok (before ++ span :: (inner ++ found :: after)))
    (split : analysis.pieces = earlier ++ literal :: later)
    (upTo : Found (earlier ++ [literal]) (before ++ [span]))
    (laid : Laid (earlier ++ [literal]) later ((inner ++ found :: after).map Span.token))
    (statement : Layout.isStatementLiteral analysis.spans earlier.length = true)
    (significant : found.isSignificant = true) (plain : ∀ other ∈ inner, other.isSignificant = false) :
    ∃ next ∈ (DecisionContext.significantAfter analysis.spans earlier.length).find?
        (!(removedIndices analysis.decisions).contains ·),
      Layout.indentation (before ++ span :: (inner ++ found :: after)) (before ++ span :: inner).length
        = Layout.indentation analysis.spans next := by
  have solid := ((Span.isSignificant_iff found).mp significant).1
  obtain ⟨passed, next, rest, rfl, there, -, contents⟩ := laid.exists_found upTo rfl solid
  have kind : found.kind = next.span.kind := congrArg Token.kind there.token_eq
  have nextSignificant : next.span.isSignificant = true := by
    rwa [Span.isSignificant, ← kind]
  have kept := Piece.not_removed_of_isContent there.content
  have gone := removed_of_contents contents plain
  have alone (inner : List Piece) (piece : Piece) (outer : List Piece)
      (place : literal :: passed = inner ++ piece :: outer) (solid : piece.span.isSignificant = true) :
      Layout.isStatementLiteral analysis.spans (earlier ++ inner).length = true := by
    cases inner with
    | nil => rwa [List.append_nil]
    | cons first others =>
      obtain ⟨rfl, rfl⟩ := List.cons.inj place
      have here : analysis.pieces
          = (earlier ++ literal :: others) ++ piece :: (outer ++ next :: rest) := by simp [split]
      rcases restricts.removed here (gone piece (by simp) solid) with comment | ⟨-, statement⟩
      · simp [Span.isSignificant_iff, comment] at solid
      · exact statement
  have literalKind := ((Layout.isStatementLiteral_iff (removed_of_markRemoved split).1).mp statement).1
  have start := lineStart_of_alone restricts split
    ⟨Span.isSignificant_of_literal literalKind, nextSignificant⟩ alone
  refine ⟨_, find?_kept split kept nextSignificant gone, ?_⟩
  have place : analysis.pieces = (earlier ++ literal :: passed) ++ next :: rest := by simp [split]
  have foundNext : Found ((earlier ++ literal :: passed) ++ [next])
      ((before ++ span :: inner) ++ [found]) := by simpa using there
  rw [← List.cons_append, ← List.append_assoc] at scanned ⊢
  exact indentation_of_found restricts scanned place foundNext start

/-- A literal that holds its block open does so in the rewritten text, if it is a statement there and
the block ends after it. -/
theorem holdsBlockOpen_of_found (restricts : analysis.Restricts .python options source)
    (scanned : Language.python.spans analysis.rewritten.text = .ok (before ++ span :: after))
    (split : analysis.pieces = earlier ++ literal :: later)
    (found : Found (earlier ++ [literal]) (before ++ [span]))
    (laid : Laid (earlier ++ [literal]) later (after.map Span.token))
    (again : Layout.isStatementLiteral (before ++ span :: after) before.length = true)
    (ends : EndsBlock analysis earlier.length)
    {docstrings others : List Nat}
    (holds : DecisionContext.holdsBlockOpen ⟨.python, options, analysis.spans, docstrings⟩
      earlier.length = true) :
    DecisionContext.holdsBlockOpen ⟨.python, options, before ++ span :: after, others⟩ before.length
      = true := by
  have statement := isStatementLiteral_of_found restricts scanned split found laid again
  obtain ⟨literalKind, -⟩ :=
    (Layout.isStatementLiteral_iff (removed_of_markRemoved split).1).mp statement
  have here : (before ++ span :: after)[before.length]? = some span := by simp
  obtain ⟨-, starts, -⟩ := (Layout.isStatementLiteral_iff here).mp again
  have indent := indentation_of_found restricts scanned split found
    (exists_lineStart_of_found restricts scanned split found
      (Span.isSignificant_of_literal literalKind) starts)
  simp only [DecisionContext.holdsBlockOpen, Option.any_eq_true, Bool.and_eq_true] at holds ⊢
  obtain ⟨rule, known, ⟨previous, nearest, opener, here, header⟩, -⟩ := holds
  have shape := header
  rw [HeaderRule.endsHeader, Bool.and_eq_true, beq_iff_eq] at shape
  obtain ⟨front, left, trivia, first, opening, between, rfl, rfl, rfl, rfl, upTo, previous⟩ :=
    exists_previous_of_found restricts split found nearest here shape.1
  have ending := (rule.endsHeader_of_token upTo.token_eq).trans header
  refine ⟨rule, known, ⟨first.length, previous _, opening, by simp, ending⟩, ?_⟩
  -- what comes first after the literal is what stayed first, and it ends the block
  refine DecisionContext.blockEndsEmpty_of_head fun next head => ?_
  obtain ⟨inner, nextFound, rest, rfl, rfl, significant, plain⟩ :=
    DecisionContext.exists_split_of_head head
  obtain ⟨next, first, same⟩ :=
    exists_next_of_found restricts scanned split found laid statement significant plain
  rw [same, indent]
  exact ends next first

end Python

end CommentStrip
