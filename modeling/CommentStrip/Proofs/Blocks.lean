import CommentStrip.Proofs.Agreement
import CommentStrip.Proofs.LineStart
import CommentStrip.Proofs.Preservation

/-!
# Blocks

A string literal right after the header of a block is removed only if the block holds a statement
without it. The first one that is kept after the literal starts its line, since literals on their own
and comments take their lines with them, and so it is still found after the header, indented as before.
-/
namespace CommentStrip

/-- From the span at `index` on, indentation does not fall below its own up to the significant span
at `next`. -/
structure BlockReaches (spans : List Span) (index next : Nat) : Prop where
  later : index < next
  significant : ∃ span, spans[next]? = some span ∧ span.isSignificant = true
  indented : Layout.indentation spans index ≤ Layout.indentation spans next
  between : ∀ other span, index < other → other < next → spans[other]? = some span →
    span.isSignificant = true → Layout.indentation spans index ≤ Layout.indentation spans other

/-- What is significant next after the header of a block starts its line, indented by at least
`indent`. -/
def HoldsStatement (spans : List Span) (header indent : Nat) : Prop :=
  ∃ next, Layout.nextSignificant? spans header = some next ∧ Layout.startsLine spans next = true
    ∧ indent ≤ Layout.indentation spans next

namespace DecisionContext

variable {spans : List Span} {index next : Nat}

/-- A block holds a statement if one comes, after literals on their own, before the indentation
falls. -/
theorem exists_of_blockEndsEmpty {indent : Nat} {indices : List Nat}
    (holds : blockEndsEmpty spans indent indices = false) :
    ∃ passed next later, indices = passed ++ next :: later
      ∧ (∀ other ∈ passed, indent ≤ Layout.indentation spans other)
      ∧ indent ≤ Layout.indentation spans next ∧ Layout.isStatementLiteral spans next = false := by
  induction indices with
  | nil => simp [blockEndsEmpty] at holds
  | cons first rest ih =>
    rw [blockEndsEmpty] at holds
    split at holds
    · simp at holds
    next deep =>
      rw [Nat.not_lt] at deep
      split at holds
      next statement =>
        rw [Bool.not_eq_true'] at statement
        exact ⟨[], first, rest, rfl, by simp, deep, statement⟩
      · obtain ⟨passed, next, later, rfl, all, found⟩ := ih holds
        exact ⟨first :: passed, next, later, rfl, List.forall_mem_cons.mpr ⟨deep, all⟩, found⟩

theorem mem_significantAfter : next ∈ significantAfter spans index
    ↔ index < next ∧ ∃ span, spans[next]? = some span ∧ span.isSignificant = true := by
  simp only [significantAfter, List.mem_filter, List.mem_range'_1, Option.any_eq_true]
  constructor
  · rintro ⟨⟨later, -⟩, span, found, significant⟩
    exact ⟨later, span, found, significant⟩
  · rintro ⟨later, span, found, significant⟩
    have inside := (List.getElem?_eq_some_iff.mp found).1
    exact ⟨by omega, span, found, significant⟩

theorem sorted_significantAfter (spans : List Span) (index : Nat) :
    (significantAfter spans index).Pairwise (· < ·) :=
  List.Pairwise.filter _ List.pairwise_lt_range'

/-- If a block is not left empty without the literals on their own, it reaches up to another
statement. -/
theorem exists_blockReaches (holds : blockEndsEmpty spans (Layout.indentation spans index)
      (significantAfter spans index) = false) :
    ∃ next, BlockReaches spans index next ∧ Layout.isStatementLiteral spans next = false := by
  obtain ⟨passed, next, later, split, all, indented, other⟩ := exists_of_blockEndsEmpty holds
  have found : next ∈ significantAfter spans index := by simp [split]
  obtain ⟨after, significant⟩ := mem_significantAfter.mp found
  refine ⟨next, ⟨after, significant, indented, fun between span past before here plain => ?_⟩, other⟩
  have member := mem_significantAfter.mpr ⟨past, span, here, plain⟩
  have sorted := sorted_significantAfter spans index
  rw [split] at member sorted
  -- the indices are in order, so those before `next` are among the passed ones
  rcases List.mem_append.mp member with inside | beyond
  · exact all between inside
  · have above := (List.pairwise_cons.mp (List.pairwise_append.mp sorted).2.1).1
    rcases List.mem_cons.mp beyond with rfl | further
    · omega
    · have := above between further
      omega

/-- A literal that there is no reason to keep does not hold its block open. -/
theorem not_holdsBlockOpen {context : DecisionContext} {span : Span}
    (commentary : context.reasonToKeep? index span = none) (literal : span.kind = .stringLiteral) :
    context.holdsBlockOpen index = false := by
  by_contra holds
  rw [Bool.not_eq_false] at holds
  unfold reasonToKeep? at commentary
  split_ifs at commentary with _ _ _ _ _ placeholder
  simp [literal, holds] at placeholder

end DecisionContext

section Pieces

variable {options : Options} {source : Text} {analysis : Analysis}
  {upTo rest earlier body passed later : List Piece} {literal piece next : Piece}

theorem getElem?_pieces (analysis : Analysis) (index : Nat) :
    analysis.pieces[index]? = analysis.spans[index]?.map fun span =>
      ⟨span, (removedIndices analysis.decisions).contains index⟩ := by
  simp only [Analysis.pieces, markRemoved, List.getElem?_map, List.getElem?_zipIdx, Option.map_map]
  simp [Function.comp_def]

/-- A span and the nearest significant one before it. -/
theorem exists_split_of_previous {index previous : Nat} {span before : Span}
    (found : analysis.spans[index]? = some span) (here : analysis.spans[previous]? = some before)
    (nearest : Layout.previousSignificant? analysis.spans index = some previous) :
    ∃ front left trivia piece rest, analysis.pieces = front ++ left :: trivia ++ piece :: rest
      ∧ front.length = previous ∧ (front ++ left :: trivia).length = index
      ∧ left.span = before ∧ piece.span = span
      ∧ ∀ other ∈ trivia, other.span.isSignificant = false := by
  have there := getElem?_pieces analysis index
  rw [found, Option.map_some] at there
  obtain ⟨upTo, rest, split, size⟩ := exists_split_of_getElem? there
  have spans : analysis.spans = upTo.map Piece.span ++ span :: rest.map Piece.span := by
    rw [← analysis.map_span_pieces, split]
    simp
  have inside := (List.getElem?_eq_some_iff.mp found).1
  obtain ⟨trivia, taken, plain⟩ :=
    Layout.exists_trivia_of_previousSignificant? (Nat.le_of_lt inside) nearest
  have first : analysis.spans.take index = upTo.map Piece.span := by
    rw [spans, List.take_left' (by simpa using size)]
  rw [first, List.take_add_one, here, List.append_assoc, List.map_eq_append_iff] at taken
  obtain ⟨front, others, rfl, frontSpans, othersSpans⟩ := taken
  obtain ⟨left, gap, rfl, leftSpan, gapSpans⟩ := List.map_eq_cons_iff.mp othersSpans
  refine ⟨front, left, gap, _, rest, split, ?_, size, leftSpan, rfl, ?_⟩
  · have known := (List.getElem?_eq_some_iff.mp here).1
    have sizes := congrArg List.length frontSpans
    simpa [Nat.min_eq_left (Nat.le_of_lt known)] using sizes
  · intro other member
    refine plain other.span ?_
    have inside : other.span ∈ gap.map Piece.span := List.mem_map_of_mem member
    rw [gapSpans] at inside
    exact inside

/-- Where no kept piece is significant, no span of the rewritten text is. -/
theorem not_isSignificant_of_contents {between : List Span} {gap : List Piece}
    (contents : Token.contents (between.map Span.token) = Piece.contents gap)
    (plain : ∀ piece ∈ gap, piece.isContent = true → piece.span.isSignificant = false) :
    ∀ span ∈ between, span.isSignificant = false := by
  intro span member
  by_contra significant
  rw [Bool.not_eq_false] at significant
  have solid : span.token.kind.isBlank = false := ((Span.isSignificant_iff span).mp significant).1
  have inside : span.token ∈ Token.contents (between.map Span.token) :=
    List.mem_filter.mpr ⟨List.mem_map_of_mem member, by simp [solid]⟩
  rw [contents] at inside
  obtain ⟨piece, within, same⟩ := List.mem_map.mp inside
  obtain ⟨there, kept⟩ := List.mem_filter.mp within
  have kind : piece.span.kind = span.kind := congrArg Token.kind same
  have other := plain piece there kept
  rw [Span.isSignificant, kind] at other
  simp [Span.isSignificant, other] at significant

/-- What a block reaches comes after the piece from which on it does. -/
private theorem getElem?_of_reaches (split : analysis.pieces = upTo ++ literal :: rest) {last : Nat}
    (reaches : BlockReaches analysis.spans upTo.length last)
    (kept : last ∉ removedIndices analysis.decisions) :
    ∃ distance span, last = upTo.length + distance + 1 ∧ rest[distance]? = some ⟨span, false⟩
      ∧ span.isSignificant = true := by
  obtain ⟨span, found, significant⟩ := reaches.significant
  have there := getElem?_pieces analysis last
  obtain ⟨distance, rfl⟩ := Nat.exists_eq_add_of_lt reaches.later
  have unmarked : (removedIndices analysis.decisions).contains (upTo.length + distance + 1) = false := by
    simpa using kept
  have onward : upTo.length + distance + 1 - upTo.length = distance + 1 := by omega
  rw [found, split, List.getElem?_append_right (by omega), Option.map_some, unmarked, onward,
    List.getElem?_cons_succ] at there
  exact ⟨distance, span, rfl, there, significant⟩

/-- Some piece that a block reaches is kept, so there is a first one, and the block reaches it. -/
theorem exists_first_kept (split : analysis.pieces = upTo ++ literal :: rest) {last : Nat}
    (reaches : BlockReaches analysis.spans upTo.length last)
    (kept : last ∉ removedIndices analysis.decisions) :
    ∃ passed next later, rest = passed ++ next :: later
      ∧ (next.span.isSignificant = true ∧ next.removed = false)
      ∧ (∀ piece ∈ passed, piece.span.isSignificant = true → piece.removed = true)
      ∧ Layout.indentation analysis.spans upTo.length
        ≤ Layout.indentation analysis.spans (upTo ++ literal :: passed).length := by
  obtain ⟨distance, span, rfl, there, significant⟩ := getElem?_of_reaches split reaches kept
  cases first : rest.find? fun piece => piece.span.isSignificant && !piece.removed with
  | none =>
    have none := List.find?_eq_none.mp first _ (List.mem_of_getElem? there)
    simp [significant] at none
  | some next =>
    obtain ⟨survives, passed, later, rfl, gone⟩ := List.find?_eq_some_iff_append.mp first
    simp only [Bool.and_eq_true, Bool.not_eq_true'] at survives
    refine ⟨passed, next, later, rfl, survives, fun piece member solid => ?_, ?_⟩
    · simpa [solid] using gone piece member
    have size : (upTo ++ literal :: passed).length = upTo.length + passed.length + 1 := by
      simp [Nat.add_assoc]
    rw [size]
    -- the first one is not beyond the one that is known
    rcases Nat.lt_trichotomy distance passed.length with before | rfl | beyond
    · rw [List.getElem?_append_left before] at there
      simpa [significant] using gone _ (List.mem_of_getElem? there)
    · exact reaches.indented
    · have whole : analysis.pieces = (upTo ++ literal :: passed) ++ next :: later := by simp [split]
      have here := (removed_of_markRemoved whole).1
      rw [size] at here
      exact reaches.between _ _ (by omega) (by omega) here survives.1

/-- A literal does not stand on its own if something significant comes after it on its line. -/
theorem not_isStatementLiteral (split : analysis.pieces = earlier ++ piece :: (body ++ next :: later))
    (unbroken : ∀ other ∈ body, other.isNewline = false) (significant : next.span.isSignificant = true) :
    Layout.isStatementLiteral analysis.spans earlier.length = false := by
  have whole : analysis.spans = earlier.map Piece.span ++ piece.span :: (body.map Piece.span
      ++ next.span :: later.map Piece.span) := by
    rw [← analysis.map_span_pieces, split]
    simp
  have solid := ((Span.isSignificant_iff next.span).mp significant).1
  have same : next.span.kind ≠ .newline := by
    intro newline
    simp [newline, Kind.isBlank] at solid
  have sameLine : ∀ span ∈ body.map Piece.span, span.kind ≠ .newline := by
    simpa [Piece.isNewline] using unbroken
  rw [whole, ← List.length_map (f := Piece.span), Layout.isStatementLiteral,
    Layout.not_endsLine significant same sameLine]
  simp

/-- The last piece before some others is not before one that is not among these. -/
private theorem exists_of_append_eq {front blanks : List Piece}
    (parts : upTo ++ literal :: passed = front ++ [piece] ++ blanks) (visible : literal ∉ blanks) :
    ∃ inner outer, literal :: passed = inner ++ piece :: outer ∧ front = upTo ++ inner := by
  rcases List.append_eq_append_iff.mp parts with ⟨more, split, after⟩ | ⟨more, -, after⟩
  · rcases List.eq_nil_or_concat more with rfl | ⟨others, last, rfl⟩
    · rw [List.nil_append] at after
      exact absurd (after ▸ List.mem_cons_self) visible
    · rw [List.concat_eq_append, ← List.append_assoc] at split
      obtain ⟨rfl, same⟩ := List.append_inj' split rfl
      obtain ⟨rfl, -⟩ := List.cons.inj same
      exact ⟨others, blanks, by simp [after], rfl⟩
  · exact absurd (by simp [after]) visible

/-- If what is significant before a span, back to some literal on its own, are literals on their own,
then the span starts its line. -/
theorem lineStart_of_alone (restricts : analysis.Restricts .python options source)
    (split : analysis.pieces = upTo ++ literal :: (passed ++ next :: later))
    (significant : literal.span.isSignificant = true ∧ next.span.isSignificant = true)
    (alone : ∀ inner piece outer, literal :: passed = inner ++ piece :: outer →
      piece.span.isSignificant = true →
      Layout.isStatementLiteral analysis.spans (upTo ++ inner).length = true) :
    ∃ lines blanks, upTo ++ literal :: passed = lines ++ blanks ∧ LineStart lines blanks := by
  have edit := restricts.edit (by simp [Language.registered])
  have whole : analysis.pieces = (upTo ++ literal :: passed) ++ next :: later := by simp [split]
  have apart := edit.blanks_apart
  rw [whole] at apart
  obtain ⟨lines, blanks, parts, other, blank⟩ := apart.left.exists_blanks
  refine ⟨lines, blanks, parts, ⟨fun piece last => ?_, blank⟩⟩
  have noBlank := other piece last
  obtain ⟨front, rfl⟩ := List.getLast?_eq_some_iff.mp last
  have place : analysis.pieces = front ++ piece :: (blanks ++ next :: later) := by
    rw [whole, parts]
    simp
  obtain ⟨inner, outer, inside, rfl⟩ := exists_of_append_eq parts fun member => by
    have white := blank literal member
    rw [Piece.isWhitespace, beq_iff_eq] at white
    simp [Span.isSignificant_iff, white, Kind.isBlank] at significant
  have sameLine : ∀ other ∈ blanks, other.isNewline = false := fun other member =>
    Piece.not_isNewline_of_isWhitespace (blank other member)
  have nextSolid := ((Span.isSignificant_iff next.span).mp significant.2).1
  rw [Kind.isBlank, Bool.or_eq_false_iff] at nextSolid
  by_contra newline
  rw [Bool.not_eq_true] at newline
  by_cases solid : piece.span.isSignificant = true
  · -- a literal on its own is alone on its line
    have statement := alone inner piece outer inside solid
    rw [not_isStatementLiteral place sameLine significant.2] at statement
    exact Bool.false_ne_true statement
  · -- a comment has a line break after it
    have noComment := not_isComment_of_unbroken edit place sameLine nextSolid.2
    rw [Span.isSignificant_iff] at solid
    exact solid ⟨by rw [Kind.isBlank, Bool.or_eq_false_iff]; exact ⟨noBlank, newline⟩, noComment⟩

end Pieces

section Python

variable {options : Options} {source : Text} {analysis : Analysis} {index header : Nat}
  {front trivia passed later : List Piece} {left literal next : Piece}

/-- Where a literal right after the header of a block is removed, its block reaches a significant span
that is not. -/
theorem exists_kept_blockReaches (analyzed : analyze .python options source = .ok analysis)
    {span opener : Span} (found : analysis.spans[index]? = some span)
    (literal : span.kind = .stringLiteral)
    (removed : ∃ decision ∈ analysis.decisions, decision.isRemoval = true ∧ decision.span = index)
    (previous : Layout.previousSignificant? analysis.spans index = some header)
    (opens : analysis.spans[header]? = some opener) (code : opener.kind = .code)
    (ends : opener.endsWith ':' = true) :
    ∃ next, BlockReaches analysis.spans index next
      ∧ ∀ decision ∈ analysis.decisions, decision.span = next → decision.isRemoval = false := by
  obtain ⟨-, made⟩ := Analysis.eq_of_analyze analyzed
  have gone := mem_removedIndices.mpr removed
  rw [made] at gone
  obtain ⟨same, here, -, commentary⟩ := mem_removedIndices_classify.mp gone
  obtain rfl : same = span := Option.some.inj (here.symm.trans found)
  have placeholder := DecisionContext.not_holdsBlockOpen commentary literal
  simp only [DecisionContext.holdsBlockOpen, Language.python, Option.any_some, previous, opens,
    HeaderRule.endsHeader, code, ends, beq_self_eq_true, Bool.true_and] at placeholder
  obtain ⟨next, reaches, other⟩ := DecisionContext.exists_blockReaches placeholder
  refine ⟨next, reaches, fun decision member there => ?_⟩
  by_contra removal
  rw [Bool.not_eq_false] at removal
  rw [made] at member
  -- only comments and literals on their own are decided about
  obtain ⟨decided, place, candidate⟩ := candidate_of_mem_classify member
  rw [there] at place candidate
  rcases (isCandidate_iff place).mp candidate with comment | ⟨-, statement⟩
  · obtain ⟨significant, same, plain⟩ := reaches.significant
    obtain rfl : significant = decided := Option.some.inj (same.symm.trans place)
    simp [Span.isSignificant_iff, comment] at plain
  · simp [statement] at other

/-- If nothing significant is kept between code and a span that starts its line with the literals
before it gone, then that span comes next after the code in the rewritten text, indented as before. -/
theorem exists_holdsStatement (restricts : analysis.Restricts .python options source)
    (split : analysis.pieces = front ++ left :: trivia ++ literal :: (passed ++ next :: later))
    (code : left.span.kind = .code)
    (significant : literal.span.isSignificant = true ∧ next.span.isSignificant = true)
    (kept : next.removed = false) (plain : ∀ piece ∈ trivia, piece.span.isSignificant = false)
    (gone : ∀ piece ∈ literal :: passed, piece.span.isSignificant = true → piece.removed = true) :
    ∃ again place, Language.python.spans analysis.rewritten.text = .ok again
      ∧ again[place]?.map Span.token = some left.span.token
      ∧ Token.contents ((again.take place).map Span.token) = Piece.contents front
      ∧ HoldsStatement again place
        (Layout.indentation analysis.spans (front ++ left :: trivia ++ literal :: passed).length) := by
  have edit := restricts.edit (by simp [Language.registered])
  have leftContent := edit.isContent_of_code (by simp [split]) code
  have content : next.isContent = true := by
    simp [Piece.isContent, kept, ((Span.isSignificant_iff _).mp significant.2).1]
  have alone (inner : List Piece) (piece : Piece) (outer : List Piece)
      (place : literal :: passed = inner ++ piece :: outer) (solid : piece.span.isSignificant = true) :
      Layout.isStatementLiteral analysis.spans (front ++ left :: trivia ++ inner).length = true := by
    have here : analysis.pieces
        = (front ++ left :: trivia ++ inner) ++ piece :: (outer ++ next :: later) := by
      rw [split, ← List.cons_append, place]
      simp
    rcases restricts.removed here (gone piece (by simp [place]) solid) with comment | ⟨-, statement⟩
    · simp [Span.isSignificant_iff, comment] at solid
    · exact statement
  obtain ⟨lines, blanks, parts, start⟩ := lineStart_of_alone restricts split significant alone
  have whole : analysis.pieces = lines ++ blanks ++ next :: later := by
    rw [← parts, split]
    simp
  obtain ⟨again, scanned, laid, -⟩ := exists_laid_of_python restricts
  have same := laid.contents
  rw [Analysis.text_rewritten, whole] at scanned
  rw [whole, Piece.contents_append, Piece.contents_cons content] at same
  obtain ⟨before, statement, after, rfl, token, contents, -⟩ := exists_split_of_contents same
  rw [whole] at edit
  obtain ⟨starts, indentation⟩ :=
    start.indentation_eq (by simp [Language.registered]) edit content scanned token contents
  -- the code is found again, and what is kept between the two is not significant
  rw [← parts, List.append_assoc, List.cons_append, Piece.contents_append,
    Piece.contents_cons leftContent] at contents
  obtain ⟨first, opening, between, rfl, opened, firstContents, betweenContents⟩ :=
    exists_split_of_contents contents
  have passing := not_isSignificant_of_contents betweenContents (by
    rw [List.forall_mem_append]
    refine ⟨fun other member _ => plain other member, fun other member stays => ?_⟩
    by_contra solid
    have removal := gone other member (by simpa using solid)
    simp [Piece.isContent, removal] at stays)
  have survived : statement.isSignificant = true := by
    rw [Span.isSignificant, show statement.kind = next.span.kind from congrArg Token.kind token]
    exact significant.2
  have text : analysis.rewritten.text = writeLines (lines ++ blanks ++ next :: later) := by
    rw [Analysis.text_rewritten, whole]
  refine ⟨_, first.length, text ▸ scanned, by simp [opened], by simp [firstContents],
    (first ++ opening :: between).length, ?_, starts, ?_⟩
  · rw [List.append_assoc, List.cons_append]
    exact Layout.nextSignificant?_append passing survived
  · rw [indentation, ← whole, analysis.map_span_pieces, ← parts]

/--
In Python, a literal right after the header of a block is removed only if the block reaches a
significant span that is kept. In the rewritten text, the same header is found after the same tokens,
and what is significant next starts its line, indented at least as the literal was.
-/
theorem header_keeps_statement (analyzed : analyze .python options source = .ok analysis)
    {span opener : Span} (found : analysis.spans[index]? = some span)
    (literal : span.kind = .stringLiteral)
    (removed : ∃ decision ∈ analysis.decisions, decision.isRemoval = true ∧ decision.span = index)
    (previous : Layout.previousSignificant? analysis.spans index = some header)
    (opens : analysis.spans[header]? = some opener) (code : opener.kind = .code)
    (ends : opener.endsWith ':' = true) :
    (∃ next, BlockReaches analysis.spans index next
        ∧ ∀ decision ∈ analysis.decisions, decision.span = next → decision.isRemoval = false)
      ∧ ∃ again place, Language.python.spans analysis.rewritten.text = .ok again
        ∧ again[place]?.map Span.token = some opener.token
        ∧ Token.contents ((again.take place).map Span.token)
          = Piece.contents (analysis.pieces.take header)
        ∧ HoldsStatement again place (Layout.indentation analysis.spans index) := by
  obtain ⟨last, reaches, kept⟩ :=
    exists_kept_blockReaches analyzed found literal removed previous opens code ends
  refine ⟨⟨last, reaches, kept⟩, ?_⟩
  obtain ⟨front, left, trivia, piece, rest, split, rfl, rfl, rfl, rfl, plain⟩ :=
    exists_split_of_previous found opens previous
  have stays : last ∉ removedIndices analysis.decisions := fun member => by
    obtain ⟨decision, inside, removal, there⟩ := mem_removedIndices.mp member
    simp [kept decision inside there] at removal
  obtain ⟨passed, next, later, rfl, survives, gone, indented⟩ := exists_first_kept split reaches stays
  have pieceGone : piece.removed = true := by
    rw [(removed_of_markRemoved split).2, List.contains_iff_mem]
    exact mem_removedIndices.mpr removed
  have significant := Span.isSignificant_of_literal literal
  obtain ⟨again, place, scanned, opened, before, next, follows, starts, same⟩ :=
    exists_holdsStatement (Analysis.restricts_of_analyze analyzed) split code
      ⟨significant, survives.1⟩ survives.2 plain (List.forall_mem_cons.mpr ⟨fun _ => pieceGone, gone⟩)
  refine ⟨again, place, scanned, opened, ?_, next, follows, starts, indented.trans same⟩
  rw [before, split, List.append_assoc, List.take_left]

/-- Two literals and the comment between them go from under a header, and the statement stays. -/
theorem header_keeps_statement_after_literals :
    ∃ analysis, analyze .python .standard "if x:\n '''a\nb'''\n #c\n  'd'\n y".toList = .ok analysis
      ∧ (∃ decision ∈ analysis.decisions, decision.isRemoval = true ∧ decision.span = 5)
      ∧ Layout.previousSignificant? analysis.spans 5 = some 2
      ∧ (∃ next, BlockReaches analysis.spans 5 next
        ∧ ∀ decision ∈ analysis.decisions, decision.span = next → decision.isRemoval = false)
      ∧ (∃ again place, Language.python.spans analysis.rewritten.text = .ok again
        ∧ again[place]?.map Span.token = some ⟨.code, "x:".toList⟩
        ∧ Token.contents ((again.take place).map Span.token)
          = Piece.contents (analysis.pieces.take 2)
        ∧ HoldsStatement again place (Layout.indentation analysis.spans 5))
      ∧ analysis.rewritten.text = "if x:\n y".toList := by
  have scanned : Language.python.spans "if x:\n '''a\nb'''\n #c\n  'd'\n y".toList
      = .ok [⟨.code, 0, 2, 1, 1, "if".toList⟩, ⟨.whitespace, 2, 3, 1, 3, " ".toList⟩,
        ⟨.code, 3, 5, 1, 4, "x:".toList⟩, ⟨.newline, 5, 6, 1, 6, "\n".toList⟩,
        ⟨.whitespace, 6, 7, 2, 1, " ".toList⟩,
        ⟨.stringLiteral, 7, 16, 2, 2, "'''a\nb'''".toList⟩,
        ⟨.newline, 16, 17, 3, 5, "\n".toList⟩, ⟨.whitespace, 17, 18, 4, 1, " ".toList⟩,
        ⟨.lineComment, 18, 20, 4, 2, "#c".toList⟩, ⟨.newline, 20, 21, 4, 4, "\n".toList⟩,
        ⟨.whitespace, 21, 23, 5, 1, "  ".toList⟩, ⟨.stringLiteral, 23, 26, 5, 3, "'d'".toList⟩,
        ⟨.newline, 26, 27, 5, 6, "\n".toList⟩, ⟨.whitespace, 27, 28, 6, 1, " ".toList⟩,
        ⟨.code, 28, 29, 6, 2, "y".toList⟩] := by
    rw [Language.spans_eq_lexWithin]
    decide +kernel
  have analyzed := analyze_of_spans .standard scanned
  refine ⟨_, analyzed, ?removed, ?previous, ?_⟩
  · decide +kernel
  · decide +kernel
  · obtain ⟨reaches, again⟩ := header_keeps_statement analyzed rfl rfl ?removed ?previous rfl rfl (by decide)
    exact ⟨reaches, again, by decide +kernel⟩

end Python

end CommentStrip
