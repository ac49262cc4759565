import CommentStrip.Layout.Continuation

/-!
# Places among spans

What the layout questions answer about a span, told from the spans before and after it.
-/
namespace CommentStrip

/-- An item at a place has others before and after it. -/
theorem exists_split_of_getElem? {α : Type} {items : List α} {item : α} {index : Nat}
    (found : items[index]? = some item) :
    ∃ earlier later, items = earlier ++ item :: later ∧ earlier.length = index := by
  obtain ⟨inside, rfl⟩ := List.getElem?_eq_some_iff.mp found
  refine ⟨items.take index, items.drop (index + 1), ?_, List.length_take_of_le (Nat.le_of_lt inside)⟩
  rw [List.getElem_cons_drop, List.take_append_drop]

theorem Span.isSignificant_iff (span : Span) :
    span.isSignificant = true ↔ span.kind.isBlank = false ∧ span.kind.isComment = false := by
  rw [Span.isSignificant, Bool.not_eq_true', Kind.isTrivia, Bool.or_eq_false_iff]

theorem Span.isSignificant_of_literal {span : Span} (literal : span.kind = .stringLiteral) :
    span.isSignificant = true := by
  simp [Span.isSignificant_iff, literal, Kind.isBlank, Kind.isComment]

namespace Layout

variable {earlier later body : List Span} {span left next : Span}

theorem isStatementLiteral_iff {spans : List Span} {index : Nat} (found : spans[index]? = some span) :
    isStatementLiteral spans index = true
      ↔ span.kind = .stringLiteral ∧ startsLine spans index = true ∧ endsLine spans index = true
        ∧ continuesLine spans index = false := by
  simp [isStatementLiteral, found, and_assoc]

theorem before_append (earlier later : List Span) :
    before (earlier ++ later) earlier.length = earlier.reverse := by
  rw [before, List.take_left]

theorem after_append (earlier later : List Span) (span : Span) :
    after (earlier ++ span :: later) earlier.length = later := by
  rw [after, ← List.drop_drop, List.drop_left]
  rfl

/-- A span that starts its line has only blanks between it and the last line break. -/
theorem whitespace_of_startsLine
    (starts : startsLine (earlier ++ left :: (body ++ later)) (earlier ++ left :: body).length = true)
    (unbroken : ∀ span ∈ left :: body, span.kind ≠ .newline) : left.kind = .whitespace := by
  have inside : left ∈ lineBefore (earlier ++ left :: (body ++ later))
      (earlier ++ left :: body).length := by
    have whole : earlier ++ left :: (body ++ later) = (earlier ++ left :: body) ++ later := by simp
    rw [lineBefore, whole, before_append, List.reverse_append, List.takeWhile_append_of_pos]
    · simp
    · intro span member
      simpa using unbroken span (List.mem_reverse.mp member)
  simpa using List.all_eq_true.mp starts _ inside

/-- A span on whose line another significant one comes later does not end its line. -/
theorem not_endsLine (significant : next.isSignificant = true) (same : next.kind ≠ .newline)
    (unbroken : ∀ other ∈ body, other.kind ≠ .newline) :
    endsLine (earlier ++ span :: (body ++ next :: later)) earlier.length = false := by
  have inside : next ∈ lineAfter (earlier ++ span :: (body ++ next :: later)) earlier.length := by
    rw [lineAfter, after_append, List.takeWhile_append_of_pos (by simpa using unbroken),
      List.takeWhile_cons_of_pos (by simpa using same)]
    simp
  rw [endsLine, List.all_eq_false]
  refine ⟨next, inside, ?_⟩
  rw [Span.isSignificant_iff, Kind.isBlank, Bool.or_eq_false_iff] at significant
  simp [significant]

/-- A span ends its line if each one after it, up to the next line break, is a blank or a comment. -/
theorem endsLine_append : endsLine (earlier ++ span :: later) earlier.length = true
    ↔ ∀ body other rest, later = body ++ other :: rest →
      (∀ span ∈ body, span.kind ≠ .newline) → other.kind ≠ .newline →
      other.kind = .whitespace ∨ other.kind.isComment = true := by
  rw [endsLine, lineAfter, after_append, List.all_eq_true]
  constructor
  · rintro ends body other rest rfl unbroken same
    have inside : other ∈ (body ++ other :: rest).takeWhile (·.kind != .newline) := by
      rw [List.takeWhile_append_of_pos (by simpa using unbroken),
        List.takeWhile_cons_of_pos (by simpa using same)]
      simp
    simpa using ends other inside
  · intro all other member
    obtain ⟨body, rest, line⟩ := List.append_of_mem member
    have whole := List.takeWhile_append_dropWhile (p := (·.kind != .newline)) (l := later)
    have unbroken : ∀ span ∈ body ++ other :: rest, span.kind ≠ .newline := by
      intro span inside
      have all := List.all_takeWhile (p := (·.kind != .newline)) (l := later)
      simpa using List.all_eq_true.mp all span (line ▸ inside)
    rw [line, List.append_assoc, List.cons_append] at whole
    rw [List.forall_mem_append, List.forall_mem_cons] at unbroken
    simpa using all body other _ whole.symm unbroken.1 unbroken.2.1

/-- The line on which a span starts begins after the last line break. -/
theorem lineBefore_append (ends : ∀ span ∈ earlier.getLast?, span.kind = .newline)
    (unbroken : ∀ span ∈ body, span.kind ≠ .newline) :
    lineBefore (earlier ++ (body ++ later)) (earlier ++ body).length = body.reverse := by
  have nothing : earlier.reverse.takeWhile (·.kind != .newline) = [] := by
    rcases List.eq_nil_or_concat earlier with rfl | ⟨others, last, rfl⟩
    · rfl
    · rw [List.concat_eq_append] at ends ⊢
      rw [List.reverse_append, List.reverse_singleton, List.singleton_append,
        List.takeWhile_cons_of_neg (by simp [ends last (by simp)])]
  rw [lineBefore, ← List.append_assoc, before_append, List.reverse_append,
    List.takeWhile_append_of_pos (by simpa using unbroken), nothing, List.append_nil]

theorem lineStart_append (ends : ∀ span ∈ earlier.getLast?, span.kind = .newline)
    (unbroken : ∀ span ∈ body, span.kind ≠ .newline) :
    lineStart (earlier ++ (body ++ later)) (earlier ++ body).length = earlier.length := by
  rw [lineStart, lineBefore_append ends unbroken, List.length_reverse, List.length_append,
    Nat.add_sub_cancel]

/-- Before a span that starts its line come whole lines, and after these only blanks. -/
theorem exists_of_startsLine (starts : startsLine (earlier ++ later) earlier.length = true) :
    ∃ lines blanks, earlier = lines ++ blanks ∧ (∀ span ∈ lines.getLast?, span.kind = .newline)
      ∧ ∀ span ∈ blanks, span.kind = .whitespace := by
  have parts : earlier.reverse.takeWhile (·.kind != .newline)
      ++ earlier.reverse.dropWhile (·.kind != .newline) = earlier.reverse :=
    List.takeWhile_append_dropWhile
  refine ⟨(earlier.reverse.dropWhile (·.kind != .newline)).reverse,
    (earlier.reverse.takeWhile (·.kind != .newline)).reverse, ?_, fun span last => ?_, ?_⟩
  · rw [← List.reverse_append, parts, List.reverse_reverse]
  · rw [List.getLast?_reverse] at last
    have stops := List.head?_dropWhile_not (·.kind != .newline) earlier.reverse
    rw [Option.mem_def.mp last] at stops
    simpa using stops
  · rw [startsLine, lineBefore, before_append, List.all_eq_true] at starts
    intro span member
    simpa using starts span (List.mem_reverse.mp member)

theorem endsWithBackslash_eq_true {spans : List Span} : endsWithBackslash spans = true
    ↔ ∃ others span ending, spans = others ++ [span, ending] ∧ span.kind = .code
      ∧ span.endsWith '\\' = true := by
  constructor
  · intro ends
    unfold endsWithBackslash at ends
    split at ends
    next ending span rest nearest =>
      rw [Bool.and_eq_true, beq_iff_eq] at ends
      refine ⟨rest.reverse, span, ending, ?_, ends⟩
      rw [← List.reverse_reverse spans, nearest]
      simp
    · simp at ends
  · rintro ⟨others, span, ending, rfl, code, ends⟩
    simp [endsWithBackslash, code, ends]

/-- Whether a line continues an earlier one is told from the whole lines before it. -/
theorem continuesLine_append (ends : ∀ span ∈ earlier.getLast?, span.kind = .newline)
    (unbroken : ∀ span ∈ body, span.kind ≠ .newline) :
    continuesLine (earlier ++ (body ++ later)) (earlier ++ body).length
      = (endsWithBackslash earlier || hasOpenBracket 0 (codeText earlier).reverse) := by
  rw [continuesLine, lineStart_append ends unbroken, List.take_left]

theorem nextSignificant?_append (plain : ∀ span ∈ body, span.isSignificant = false)
    (significant : next.isSignificant = true) :
    nextSignificant? (earlier ++ left :: (body ++ next :: later)) earlier.length
      = some (earlier ++ left :: body).length := by
  have none : body.findIdx? Span.isSignificant = none := by simpa using plain
  rw [nextSignificant?, after_append, List.findIdx?_append, none, List.findIdx?_cons, significant]
  simp [Nat.add_assoc, Nat.add_comm body.length]

theorem previousSignificant?_append (plain : ∀ span ∈ body, span.isSignificant = false)
    (significant : left.isSignificant = true) (later : List Span) :
    previousSignificant? (earlier ++ left :: body ++ later) (earlier ++ left :: body).length
      = some earlier.length := by
  have none : body.reverse.findIdx? Span.isSignificant = none := by simpa using plain
  rw [previousSignificant?, before_append, List.reverse_append, List.reverse_cons, List.append_assoc,
    List.findIdx?_append, none, List.singleton_append, List.findIdx?_cons, significant]
  simp

theorem previousSignificant?_eq_none (later : List Span) :
    previousSignificant? (earlier ++ later) earlier.length = none
      ↔ ∀ span ∈ earlier, span.isSignificant = false := by
  rw [previousSignificant?, before_append, Option.map_eq_none_iff, List.findIdx?_eq_none_iff]
  simp

end Layout

end CommentStrip
