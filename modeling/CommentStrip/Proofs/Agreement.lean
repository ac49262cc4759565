import CommentStrip.Docstring
import CommentStrip.Proofs.Lines
import Mathlib.Data.List.Forall2

/-!
# Agreement on code

Two sequences of spans agree on code if they have the same kinds in the same places and the same
text wherever that is code. What the layout questions answer mostly depends on no more than that:
where a line starts, what comes before it, whether it continues an earlier one, and so whether a
string literal is a statement. Only the text of a header and the backslash at the end of one of its
lines may be the text of another kind.
-/
namespace CommentStrip

/-- Two spans of one kind that say the same if they are code. -/
structure Span.SameCode (span other : Span) : Prop where
  kind : other.kind = span.kind
  text : span.kind = .code → other.text = span.text

namespace Layout

/-- Brackets in a text that is read last character first: either one is open in the part that comes
first, or what this part leaves unmatched decides about the other part. -/
theorem hasOpenBracket_append (closed : Nat) (near far : Text) :
    hasOpenBracket closed (near ++ far)
      = (hasOpenBracket closed near || hasOpenBracket (closedBefore closed near) far) := by
  induction near generalizing closed with
  | nil => rfl
  | cons c rest ih =>
    simp only [List.cons_append, hasOpenBracket, closedBefore]
    split
    · exact ih (closed + 1)
    · split
      · cases closed with
        | zero => rfl
        | succ outer => exact ih outer
      · exact ih closed

theorem codeText_append (earlier later : List Span) :
    codeText (earlier ++ later) = codeText earlier ++ codeText later := by
  simp [codeText]

theorem codeText_of_ne_code {spans : List Span} (other : ∀ span ∈ spans, span.kind ≠ .code) :
    codeText spans = [] := by
  have none : spans.filter (·.kind == .code) = [] := by
    simpa [List.filter_eq_nil_iff] using other
  rw [codeText, none]
  rfl

section Lists

variable {α β : Type} {R : α → β → Prop} {items : List α} {others : List β} {p : α → Bool}
  {q : β → Bool}

private theorem forall₂_takeWhile (related : List.Forall₂ R items others)
    (alike : ∀ item other, R item other → q other = p item) :
    List.Forall₂ R (items.takeWhile p) (others.takeWhile q) := by
  induction related with
  | nil => exact .nil
  | cons first rest ih =>
    simp only [List.takeWhile_cons, alike _ _ first]
    split
    · exact .cons first ih
    · exact .nil

private theorem all_eq_of_forall₂ (related : List.Forall₂ R items others)
    (alike : ∀ item other, R item other → q other = p item) : others.all q = items.all p := by
  induction related with
  | nil => rfl
  | cons first rest ih => rw [List.all_cons, List.all_cons, alike _ _ first, ih]

private theorem findIdx?_eq_of_forall₂ (related : List.Forall₂ R items others)
    (alike : ∀ item other, R item other → q other = p item) :
    others.findIdx? q = items.findIdx? p := by
  induction related with
  | nil => rfl
  | cons first rest ih => rw [List.findIdx?_cons, List.findIdx?_cons, alike _ _ first, ih]

theorem any_getElem?_of_forall₂ (related : List.Forall₂ R items others)
    (alike : ∀ item other, R item other → q other = p item) (index : Nat) :
    others[index]?.any q = items[index]?.any p := by
  induction related generalizing index with
  | nil => rfl
  | cons first rest ih =>
    cases index with
    | zero => simpa using alike _ _ first
    | succ index => simpa using ih index

theorem exists_getElem?_of_forall₂ (related : List.Forall₂ R items others) {index : Nat}
    {item : α} (found : items[index]? = some item) :
    ∃ other, others[index]? = some other ∧ R item other := by
  induction related generalizing index with
  | nil => simp at found
  | cons first rest ih =>
    cases index with
    | zero => exact ⟨_, rfl, by simpa using Option.some.inj found ▸ first⟩
    | succ index => exact ih found

theorem related_of_getElem? (related : List.Forall₂ R items others) {index : Nat} {item : α}
    {other : β} (found : items[index]? = some item) (foundOther : others[index]? = some other) :
    R item other := by
  obtain ⟨there, same, alike⟩ := exists_getElem?_of_forall₂ related found
  obtain rfl := Option.some.inj (same.symm.trans foundOther)
  exact alike

end Lists

section Kinds

variable {spans others : List Span} (same : List.Forall₂ Span.SameCode spans others)

include same

theorem forall₂_before (index : Nat) :
    List.Forall₂ Span.SameCode (before spans index) (before others index) :=
  List.forall₂_reverse_iff.mpr (List.forall₂_take index same)

/-- Lines start at the same spans. -/
theorem lineStart_eq (index : Nat) : lineStart others index = lineStart spans index := by
  have lines := forall₂_takeWhile (forall₂_before same index)
    (p := (·.kind != .newline)) (q := (·.kind != .newline)) fun _ _ alike => by rw [alike.kind]
  rw [lineStart, lineStart, lineBefore, lineBefore, lines.length_eq]

theorem startsLine_eq (index : Nat) : startsLine others index = startsLine spans index := by
  have lines := forall₂_takeWhile (forall₂_before same index)
    (p := (·.kind != .newline)) (q := (·.kind != .newline)) fun _ _ alike => by rw [alike.kind]
  apply all_eq_of_forall₂ lines
  intro span other alike
  rw [alike.kind]

theorem endsLine_eq (index : Nat) : endsLine others index = endsLine spans index := by
  have lines := forall₂_takeWhile (List.forall₂_drop (index + 1) same)
    (p := (·.kind != .newline)) (q := (·.kind != .newline)) fun _ _ alike => by rw [alike.kind]
  apply all_eq_of_forall₂ lines
  intro span other alike
  rw [alike.kind]

theorem previousSignificant?_eq (index : Nat) :
    previousSignificant? others index = previousSignificant? spans index := by
  rw [previousSignificant?, previousSignificant?]
  congr 1
  apply findIdx?_eq_of_forall₂ (forall₂_before same index)
  intro span other alike
  rw [Span.isSignificant, Span.isSignificant, alike.kind]

theorem codeText_eq : codeText others = codeText spans := by
  induction same with
  | nil => rfl
  | @cons span other earlier later alike _ ih =>
    rw [← List.singleton_append, ← List.singleton_append (l := earlier), codeText_append,
      codeText_append, ih]
    -- a single span counts with its text if it is code
    congr 1
    by_cases code : span.kind = .code
    · simp [codeText, alike.kind, code, alike.text code]
    · simp [codeText, alike.kind, code]

/-- Code ends with a backslash in both or in neither. -/
theorem endsWithBackslash_eq : endsWithBackslash others = endsWithBackslash spans := by
  have nearest := List.forall₂_reverse_iff.mpr same
  unfold endsWithBackslash
  generalize spans.reverse = before at nearest
  generalize others.reverse = beforeOther at nearest
  cases nearest with
  | nil => rfl
  | cons _ rest =>
    cases rest with
    | nil => rfl
    | @cons span other _ _ alike _ =>
      show (other.kind == .code && other.endsWith '\\') = (span.kind == .code && span.endsWith '\\')
      by_cases code : span.kind = .code
      · rw [alike.kind, Span.endsWith, Span.endsWith, alike.text code]
      · have different : (span.kind == .code) = false := beq_eq_false_iff_ne.mpr code
        rw [alike.kind, different]
        rfl

theorem continuesLine_eq (index : Nat) : continuesLine others index = continuesLine spans index := by
  have earlier := List.forall₂_take (lineStart spans index) same
  simp only [continuesLine, lineStart_eq same, endsWithBackslash_eq earlier, codeText_eq earlier]

/-- The same literals are statements. -/
theorem isStatementLiteral_eq (index : Nat) :
    isStatementLiteral others index = isStatementLiteral spans index := by
  have literal : others[index]?.any (·.kind == .stringLiteral)
      = spans[index]?.any (·.kind == .stringLiteral) := by
    apply any_getElem?_of_forall₂ same
    intro span other alike
    rw [alike.kind]
  rw [isStatementLiteral, isStatementLiteral, literal, startsLine_eq same, endsLine_eq same,
    continuesLine_eq same]

end Kinds

section Nearest

variable {spans : List Span} {span : Span} {index previous : Nat}

theorem before_succ (found : spans[index]? = some span) :
    before spans (index + 1) = span :: before spans index := by
  rw [before, List.take_add_one, found, List.reverse_append]
  rfl

theorem previousSignificant?_succ (found : spans[index]? = some span) :
    previousSignificant? spans (index + 1)
      = if span.isSignificant then some index else previousSignificant? spans index := by
  rw [previousSignificant?, before_succ found, List.findIdx?_cons]
  split
  · rfl
  · rw [previousSignificant?, Option.map_map]
    congr 1
    funext distance
    simp only [Function.comp]
    omega

/-- What comes before a span is what comes before its line and what comes before it on its line. -/
theorem take_eq_lineStart_append (inside : index ≤ spans.length) :
    spans.take index = spans.take (lineStart spans index) ++ (lineBefore spans index).reverse := by
  have parts : lineBefore spans index ++ (before spans index).dropWhile (·.kind != .newline)
      = before spans index := List.takeWhile_append_dropWhile
  have whole : spans.take index
      = ((before spans index).dropWhile (·.kind != .newline)).reverse
        ++ (lineBefore spans index).reverse := by
    rw [← List.reverse_append, parts, before, List.reverse_reverse]
  have size := congrArg List.length whole
  simp only [List.length_append, List.length_reverse, List.length_take, Nat.min_eq_left inside]
    at size
  have start : spans.take (lineStart spans index)
      = ((before spans index).dropWhile (·.kind != .newline)).reverse := by
    have shorter : spans.take (lineStart spans index)
        = (spans.take index).take (lineStart spans index) := by
      rw [List.take_take, Nat.min_eq_left (lineStart_le spans index)]
    rw [shorter, whole, List.take_left']
    rw [List.length_reverse, lineStart]
    omega
  rw [start, ← whole]

/-- Only blanks and comments lie between a span and the nearest significant one before it. -/
theorem exists_trivia_of_previousSignificant? (inside : index ≤ spans.length)
    (found : previousSignificant? spans index = some previous) :
    ∃ trivia, spans.take index = spans.take (previous + 1) ++ trivia
      ∧ ∀ span ∈ trivia, span.isSignificant = false := by
  -- backwards from the span, one neighbour at a time
  induction index with
  | zero => simp [previousSignificant?, before] at found
  | succ index ih =>
    have neighbour : spans[index]? = some spans[index] := List.getElem?_eq_getElem inside
    rw [previousSignificant?_succ neighbour] at found
    split at found
    · obtain rfl := Option.some.inj found
      exact ⟨[], (List.append_nil _).symm, by simp⟩
    next passed =>
      obtain ⟨trivia, whole, plain⟩ := ih (Nat.le_of_succ_le inside) found
      refine ⟨trivia ++ [spans[index]], ?_, ?_⟩
      · rw [List.take_add_one, neighbour, whole, List.append_assoc]
        rfl
      · rw [List.forall_mem_append, List.forall_mem_singleton]
        exact ⟨plain, by simpa using passed⟩

end Nearest

section Balance

variable {spans earlier : List Span} {span : Span} {index previous closed : Nat}

theorem codeText_singleton (span : Span) :
    codeText [span] = if span.kind = .code then span.text else [] := by
  by_cases code : span.kind = .code <;> simp [codeText, code]

/-- If no bracket is open after code, none is before it but those that it closes. -/
theorem balanced_before_code
    (balanced : hasOpenBracket closed (codeText (earlier ++ [span])).reverse = false)
    (code : span.kind = .code) :
    hasOpenBracket (closedBefore closed span.text.reverse) (codeText earlier).reverse = false := by
  rw [codeText_append, List.reverse_append, hasOpenBracket_append, Bool.or_eq_false_iff,
    codeText_singleton, if_pos code] at balanced
  exact balanced.2

/-- What is not code leaves the brackets as they are. -/
theorem balanced_before_other
    (balanced : hasOpenBracket closed (codeText (earlier ++ [span])).reverse = false)
    (other : span.kind ≠ .code) : hasOpenBracket closed (codeText earlier).reverse = false := by
  rwa [codeText_append, codeText_singleton, if_neg other, List.append_nil] at balanced

/-- No bracket is open at the end of a line after which a literal is a statement, nor, since only
trivia lies between, at the nearest significant span before the literal. -/
theorem balanced_of_isStatementLiteral (statement : isStatementLiteral spans index = true)
    (found : previousSignificant? spans index = some previous) :
    hasOpenBracket 0 (codeText (spans.take (previous + 1))).reverse = false := by
  simp only [isStatementLiteral, Bool.and_eq_true, Bool.not_eq_true'] at statement
  obtain ⟨⟨⟨literal, starts⟩, -⟩, separate⟩ := statement
  have inside : index < spans.length := by
    by_contra outside
    simp [List.getElem?_eq_none (Nat.le_of_not_lt outside)] at literal
  simp only [continuesLine, Bool.or_eq_false_iff] at separate
  -- up to its line and up to the significant span before it, the same code comes before the literal
  suffices same : codeText (spans.take (lineStart spans index))
      = codeText (spans.take (previous + 1)) by
    rw [← same]
    exact separate.2
  obtain ⟨trivia, whole, plain⟩ := exists_trivia_of_previousSignificant? (Nat.le_of_lt inside) found
  have blanks : codeText (lineBefore spans index).reverse = [] := by
    apply codeText_of_ne_code
    intro span member code
    have blank := List.all_eq_true.mp starts span (List.mem_reverse.mp member)
    simp [code] at blank
  have noCode : codeText trivia = [] := by
    apply codeText_of_ne_code
    intro span member code
    have passed := plain span member
    simp [Span.isSignificant, Kind.isTrivia, Kind.isBlank, Kind.isComment, code] at passed
  have line := congrArg codeText (take_eq_lineStart_append (Nat.le_of_lt inside))
  rw [whole, codeText_append, codeText_append, noCode, blanks, List.append_nil, List.append_nil]
    at line
  exact line.symm

end Balance

section Walk

variable {R : Span → Span → Prop} {spans others : List Span}

/-- Outside brackets, the spans in the same places end with a backslash in both sequences or in
neither. -/
def SameContinuations (spans others : List Span) : Prop :=
  ∀ index, ∀ span ∈ spans[index]?, ∀ other ∈ others[index]?,
    hasOpenBracket 0 (codeText (spans.take (index + 1))).reverse = false →
    other.endsWith '\\' = span.endsWith '\\'

private theorem before_succ_of_none {index : Nat} (outside : spans[index]? = none) :
    before spans (index + 1) = before spans index := by
  rw [before, List.take_add_one, outside, Option.toList_none, List.append_nil, before]

/-- Where lines may end, the span before a line break ends with a backslash in both sequences or in
neither. -/
private theorem head?_endsWith_eq (related : List.Forall₂ R spans others)
    (continued : SameContinuations spans others) {index : Nat} (inside : index ≤ spans.length)
    (balanced : hasOpenBracket 0 (codeText (spans.take index)).reverse = false) :
    (before others index).head?.any (·.endsWith '\\')
      = (before spans index).head?.any (·.endsWith '\\') := by
  cases index with
  | zero => rfl
  | succ index =>
    have found : spans[index]? = some spans[index] := List.getElem?_eq_getElem inside
    obtain ⟨other, foundOther, -⟩ := exists_getElem?_of_forall₂ related found
    rw [before_succ found, before_succ foundOther]
    exact continued index _ found other foundOther balanced

/-- A logical line takes the spans in the same places from two sequences that agree on code, if its
lines end with a backslash in both or in neither. No bracket may be open where it ends. -/
theorem forall₂_logicalBefore (related : List.Forall₂ R spans others)
    (code : ∀ span other, R span other → span.SameCode other)
    (continued : SameContinuations spans others) {closed : Nat} (index : Nat)
    (balanced : hasOpenBracket closed (codeText (spans.take index)).reverse = false) :
    List.Forall₂ R (logicalBefore closed (before spans index))
      (logicalBefore closed (before others index)) := by
  -- from right to left; the invariant is that no bracket is open in what is still to be read
  induction index generalizing closed with
  | zero => exact .nil
  | succ index ih =>
    cases found : spans[index]? with
    | none =>
      -- beyond the end of both sequences nothing is read
      have outside : others[index]? = none := by
        rw [List.getElem?_eq_none_iff, ← related.length_eq]
        exact List.getElem?_eq_none_iff.mp found
      rw [before_succ_of_none found, before_succ_of_none outside]
      apply ih
      rwa [List.take_add_one, found, Option.toList_none, List.append_nil] at balanced
    | some span =>
      obtain ⟨other, foundOther, alike⟩ := exists_getElem?_of_forall₂ related found
      have same := code span other alike
      have inside : index ≤ spans.length :=
        Nat.le_of_lt (List.getElem?_eq_some_iff.mp found).1
      rw [List.take_add_one, found, Option.toList_some] at balanced
      rw [before_succ found, before_succ foundOther]
      simp only [logicalBefore, same.kind]
      cases kind : span.kind with
      | code =>
        -- both walks pass the same brackets
        rw [same.text kind]
        exact .cons alike (ih (balanced_before_code balanced kind))
      | newline =>
        have still := balanced_before_other balanced (by simp [kind])
        by_cases level : closed = 0
        · -- the line may end here, which the span before the line break decides
          subst level
          simp only [head?_endsWith_eq related continued inside still]
          split
          · exact .nil
          · exact .cons alike (ih still)
        · simp only [level, false_and, if_false]
          exact .cons alike (ih still)
      | stringLiteral | lineComment | blockComment | whitespace =>
        exact .cons alike (ih (balanced_before_other balanced (by simp [kind])))

/-- The spans of a logical line, from first to last. -/
theorem forall₂_logicalSpans (related : List.Forall₂ R spans others)
    (code : ∀ span other, R span other → span.SameCode other)
    (continued : SameContinuations spans others) {index : Nat}
    (balanced : hasOpenBracket 0 (codeText (spans.take (index + 1))).reverse = false) :
    List.Forall₂ R (logicalSpans spans index).reverse (logicalSpans others index).reverse :=
  List.forall₂_reverse_iff.mpr (forall₂_logicalBefore related code continued (index + 1) balanced)

end Walk

end Layout

section Docstrings

/-- Whether the logical line that ends with the span at `index` begins with a keyword of the rule. -/
def HeaderRule.announces (rule : HeaderRule) (spans : List Span) (index : Nat) : Bool :=
  rule.keywords.any (startsWithKeyword (Layout.logicalLine spans index).trimStart)

variable {spans others : List Span} (same : List.Forall₂ Span.SameCode spans others)

include same

/-- Only code ends a header, and it says the same. -/
theorem HeaderRule.any_endsHeader_eq (rule : HeaderRule) (index : Nat) :
    others[index]?.any rule.endsHeader = spans[index]?.any rule.endsHeader := by
  apply Layout.any_getElem?_of_forall₂ same
  intro span other alike
  by_cases code : span.kind = .code
  · rw [endsHeader, endsHeader, alike.kind, Span.endsWith, Span.endsWith, alike.text code]
  · have different : (span.kind == .code) = false := beq_eq_false_iff_ne.mpr code
    rw [endsHeader, endsHeader, alike.kind, different]
    rfl

/-- A literal is a docstring in both sequences or in neither, if headers announce the same blocks.
Only headers that end outside brackets count. -/
theorem HeaderRule.isDocstring_eq {rule : HeaderRule}
    (headers : ∀ previous,
      Layout.hasOpenBracket 0 (Layout.codeText (spans.take (previous + 1))).reverse = false →
      rule.announces others previous = rule.announces spans previous) (index : Nat) :
    rule.isDocstring others index = rule.isDocstring spans index := by
  rw [isDocstring, isDocstring, Layout.isStatementLiteral_eq same,
    Layout.previousSignificant?_eq same]
  cases statement : Layout.isStatementLiteral spans index with
  | false => rfl
  | true =>
    congr 1
    cases found : Layout.previousSignificant? spans index with
    | none => rfl
    | some previous =>
      have announced := headers previous (Layout.balanced_of_isStatementLiteral statement found)
      rw [Option.all_some, Option.all_some, opensDocumentedBlock, opensDocumentedBlock,
        rule.any_endsHeader_eq same]
      exact congrArg _ announced

theorem Language.docstringIndices_eq {language : Language}
    (headers : ∀ rule ∈ language.docstrings, ∀ previous,
      Layout.hasOpenBracket 0 (Layout.codeText (spans.take (previous + 1))).reverse = false →
      rule.announces others previous = rule.announces spans previous) :
    language.docstringIndices others = language.docstringIndices spans := by
  unfold docstringIndices
  cases known : language.docstrings with
  | none => rfl
  | some rule =>
    dsimp only
    rw [← same.length_eq]
    apply List.filter_congr
    intro index _
    exact HeaderRule.isDocstring_eq same (headers rule known) index

end Docstrings

end CommentStrip
