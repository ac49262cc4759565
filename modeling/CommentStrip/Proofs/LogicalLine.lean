import CommentStrip.Proofs.Keyword

/-!
# Logical lines

A logical line is read from right to left, over line breaks inside brackets and after a backslash. A
keyword at its start is carried from one sequence of spans to another if it is carried past each token
that both have, and through the blanks between the tokens.
-/
namespace CommentStrip

namespace Layout

/-- The text of the spans that are not comments. -/
def shownText (spans : List Span) : Text :=
  (spans.filter (!·.kind.isComment)).flatMap Span.text

theorem shownText_append (first second : List Span) :
    shownText (first ++ second) = shownText first ++ shownText second := by
  simp [shownText]

theorem shownText_singleton (span : Span) :
    shownText [span] = if span.kind.isComment then [] else span.text := by
  cases comment : span.kind.isComment <;> simp [shownText, comment]

theorem shownText_of_blank {spans : List Span} (blank : ∀ span ∈ spans, span.kind.isBlank = true) :
    shownText spans = spans.flatMap Span.text := by
  rw [shownText, List.filter_eq_self.mpr]
  intro span member
  have white := blank span member
  cases kind : span.kind <;> simp_all [Kind.isBlank, Kind.isComment]

theorem shownText_eq_of_tokens {spans others : List Span}
    (same : spans.map Span.token = others.map Span.token) : shownText spans = shownText others := by
  have written (spans : List Span) : shownText spans
      = ((spans.map Span.token).filter (!·.kind.isComment)).flatMap Token.text := by
    rw [List.filter_map, List.flatMap_map]
    rfl
  rw [written, written, same]

/-- The brackets closed after a span, as they are counted before it. -/
def closedAt (closed : Nat) (span : Span) : Nat :=
  if span.kind = .code then closedBefore closed span.text.reverse else closed

variable {gap blanks near far : List Span} {span : Span} {closed : Nat}

/-- The text of the logical line that ends with a span. -/
theorem logicalLine_append (earlier later : List Span) (span : Span) :
    logicalLine (earlier ++ span :: later) earlier.length
      = shownText (logicalBefore 0 (earlier ++ [span]).reverse).reverse := by
  have nearest := before_append (earlier ++ [span]) later
  rw [← List.append_cons, List.length_append, List.length_singleton] at nearest
  rw [logicalLine, logicalSpans, nearest, shownText]

theorem balanced_before {earlier : List Span}
    (balanced : hasOpenBracket closed (codeText (earlier ++ [span])).reverse = false) :
    hasOpenBracket (closedAt closed span) (codeText earlier).reverse = false := by
  rw [closedAt]
  split
  next code => exact balanced_before_code balanced code
  next other => exact balanced_before_other balanced other

theorem logicalBefore_cons (same : span.kind ≠ .newline) :
    logicalBefore closed (span :: near) = span :: logicalBefore (closedAt closed span) near := by
  rw [logicalBefore, closedAt]
  cases kind : span.kind <;> simp_all

/-- Inside brackets a logical line goes on. -/
theorem logicalBefore_append_of_closed (closes : closed ≠ 0) (plain : ∀ span ∈ gap, span.kind ≠ .code) :
    logicalBefore closed (gap ++ near) = gap ++ logicalBefore closed near := by
  induction gap with
  | nil => rfl
  | cons span others ih =>
    rw [List.forall_mem_cons] at plain
    rw [List.cons_append, logicalBefore, ih plain.2]
    cases kind : span.kind <;> simp_all

/-- A logical line takes some of the spans that are given. -/
theorem logicalBefore_prefix (closed : Nat) (nearest : List Span) :
    logicalBefore closed nearest <+: nearest := by
  induction nearest generalizing closed with
  | nil => exact List.prefix_rfl
  | cons span others ih =>
    rw [logicalBefore]
    have onward (closed : Nat) : span :: logicalBefore closed others <+: span :: others :=
      (List.prefix_cons_inj span).mpr (ih closed)
    cases span.kind with
    | newline =>
      dsimp only
      split
      · exact List.nil_prefix
      · exact onward closed
    | _ => exact onward _

/-- Outside brackets a logical line begins after the last line break, if no backslash stands before a
line break. -/
theorem logicalBefore_append_of_newline (plain : ∀ span ∈ gap, span.kind ≠ .code)
    (newline : ∃ span ∈ gap, span.kind = .newline) (unmarked : ∀ span ∈ gap, span.endsWith '\\' = false)
    (last : near.head?.any (·.endsWith '\\') = false) : logicalBefore 0 (gap ++ near) <+: gap := by
  induction gap with
  | nil => simp at newline
  | cons span others ih =>
    rw [List.forall_mem_cons] at plain unmarked
    rw [List.cons_append, logicalBefore]
    have onward (same : span.kind ≠ .newline) :
        span :: logicalBefore 0 (others ++ near) <+: span :: others := by
      refine (List.prefix_cons_inj span).mpr (ih plain.2 ?_ unmarked.2)
      obtain ⟨ending, member, ends⟩ := newline
      rcases List.mem_cons.mp member with rfl | inside
      · exact absurd ends same
      · exact ⟨ending, inside, ends⟩
    cases kind : span.kind with
    | code => exact absurd kind plain.1
    | newline =>
      have finished : (others ++ near).head?.any (·.endsWith '\\') = false := by
        cases others with
        | nil => exact last
        | cons other more => exact unmarked.2 other List.mem_cons_self
      rw [if_pos ⟨rfl, finished⟩]
      exact List.nil_prefix
    | _ => exact onward (by simp [kind])

/-- Through gaps with the same tokens, two logical lines go on alike. -/
theorem logicalBefore_append_of_tokens (closed : Nat) (plain : ∀ span ∈ gap, span.kind ≠ .code)
    (same : blanks.map Span.token = gap.map Span.token)
    (last : far.head?.any (·.endsWith '\\') = near.head?.any (·.endsWith '\\')) :
    (logicalBefore closed (blanks ++ far)).map Span.token
        = (logicalBefore closed (gap ++ near)).map Span.token
      ∨ logicalBefore closed (gap ++ near) = gap ++ logicalBefore closed near
        ∧ logicalBefore closed (blanks ++ far) = blanks ++ logicalBefore closed far := by
  induction gap generalizing blanks with
  | nil =>
    obtain rfl := List.map_eq_nil_iff.mp same
    exact .inr ⟨rfl, rfl⟩
  | cons span others ih =>
    obtain ⟨blank, more, rfl, token, rest⟩ := List.map_eq_cons_iff.mp same
    rw [List.forall_mem_cons] at plain
    have kind : blank.kind = span.kind := congrArg Token.kind token
    have heads : (more ++ far).head?.any (·.endsWith '\\') = (others ++ near).head?.any (·.endsWith '\\') := by
      cases others with
      | nil =>
        obtain rfl := List.map_eq_nil_iff.mp rest
        exact last
      | cons other others =>
        obtain ⟨first, _, rfl, token, -⟩ := List.map_eq_cons_iff.mp rest
        have text : first.text = other.text := congrArg Token.text token
        simp [Span.endsWith, text]
    have onward : (blank :: logicalBefore closed (more ++ far)).map Span.token
          = (span :: logicalBefore closed (others ++ near)).map Span.token
        ∨ span :: logicalBefore closed (others ++ near) = span :: others ++ logicalBefore closed near
          ∧ blank :: logicalBefore closed (more ++ far) = blank :: more ++ logicalBefore closed far := by
      refine (ih plain.2 rest).imp (fun alike => ?_) (And.imp (congrArg _) (congrArg _))
      rw [List.map_cons, List.map_cons, token, alike]
    rw [List.cons_append, List.cons_append, logicalBefore, logicalBefore, kind]
    cases here : span.kind with
    | code => exact absurd here plain.1
    | newline =>
      dsimp only
      rw [heads]
      split
      · exact .inl rfl
      · exact onward
    | _ => exact onward

end Layout

namespace HeaderRule

variable {rule : HeaderRule} {near far gap blanks : List Span} {span other : Span} {closed : Nat}

/-- Whether a logical line that goes on after these spans with a text, in which `closed` more brackets
are closed than opened, begins with a keyword. -/
def beginsLine (rule : HeaderRule) (closed : Nat) (spans : List Span) (text : Text) : Bool :=
  rule.begins (Layout.shownText (Layout.logicalBefore closed spans.reverse).reverse ++ text)

/-- A keyword at the start of a logical line that goes on after some spans is at the start of the one
that goes on after others. -/
def Carries (rule : HeaderRule) (closed : Nat) (spans others : List Span) : Prop :=
  ∀ text other, rule.Replaces text other →
    rule.beginsLine closed spans text = true → rule.beginsLine closed others other = true

/-- The keyword of a header is looked for at the start of its logical line. -/
theorem any_startsWithKeyword_logicalLine (rule : HeaderRule) (earlier later : List Span) (span : Span) :
    rule.keywords.any (startsWithKeyword
        (Layout.logicalLine (earlier ++ span :: later) earlier.length).trimStart)
      = rule.beginsLine 0 (earlier ++ [span]) [] := by
  rw [Layout.logicalLine_append, beginsLine, List.append_nil, begins]

theorem Carries.start : rule.Carries closed [] [] :=
  fun _ _ replaces begins => replaces [] begins

theorem beginsLine_concat (same : span.kind ≠ .newline) (text : Text) :
    rule.beginsLine closed (near ++ [span]) text
      = rule.beginsLine (Layout.closedAt closed span) near (Layout.shownText [span] ++ text) := by
  rw [beginsLine, List.reverse_append, List.reverse_singleton, List.singleton_append,
    Layout.logicalBefore_cons same, List.reverse_cons, Layout.shownText_append, List.append_assoc,
    beginsLine]

/-- A keyword is carried past the same token. -/
theorem Carries.concat (carries : rule.Carries (Layout.closedAt closed span) near far)
    (solid : span.kind ≠ .newline) (same : other.token = span.token) :
    rule.Carries closed (near ++ [span]) (far ++ [other]) := by
  have kind : other.kind = span.kind := congrArg Token.kind same
  have text : other.text = span.text := congrArg Token.text same
  have counts : Layout.closedAt closed other = Layout.closedAt closed span := by
    rw [Layout.closedAt, Layout.closedAt, kind, text]
  have shown : Layout.shownText [other] = Layout.shownText [span] := by
    rw [Layout.shownText_singleton, Layout.shownText_singleton, kind, text]
  intro text written replaces begins
  rw [beginsLine_concat solid] at begins
  rw [beginsLine_concat (kind ▸ solid), counts, shown]
  exact carries _ _ (replaces.append _) begins

/-- A keyword is carried through the same blanks. -/
theorem Carries.append_of_tokens (carries : rule.Carries closed near far)
    (plain : ∀ span ∈ gap, span.kind ≠ .code) (same : blanks.map Span.token = gap.map Span.token)
    (last : far.getLast?.any (·.endsWith '\\') = near.getLast?.any (·.endsWith '\\')) :
    rule.Carries closed (near ++ gap) (far ++ blanks) := by
  have alsoSame : blanks.reverse.map Span.token = gap.reverse.map Span.token := by
    rw [List.map_reverse, List.map_reverse, same]
  rw [← List.head?_reverse, ← List.head?_reverse] at last
  intro text written replaces begins
  rw [beginsLine, List.reverse_append] at begins ⊢
  rcases Layout.logicalBefore_append_of_tokens closed
      (fun span member => plain span (List.mem_reverse.mp member)) alsoSame last with
    alike | ⟨here, there⟩
  · -- both lines begin in the gap
    have reversed : (Layout.logicalBefore closed (blanks.reverse ++ far.reverse)).reverse.map Span.token
        = (Layout.logicalBefore closed (gap.reverse ++ near.reverse)).reverse.map Span.token := by
      rw [List.map_reverse, List.map_reverse, alike]
    rw [Layout.shownText_eq_of_tokens reversed]
    exact replaces _ begins
  · rw [here, List.reverse_append, List.reverse_reverse, Layout.shownText_append,
      List.append_assoc] at begins
    rw [there, List.reverse_append, List.reverse_reverse, Layout.shownText_append, List.append_assoc,
      Layout.shownText_eq_of_tokens same]
    exact carries _ _ (replaces.append _) begins

end HeaderRule

end CommentStrip
