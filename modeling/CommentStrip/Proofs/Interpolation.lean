import CommentStrip.Proofs.Progress

/-!
# The grammar of a literal's body

The search for a closing quote keeps track of braces, of quotes and of inert characters, one
character after the other. The body of a literal also has a grammar: it is a sequence of units, one
of which may be an embedded expression, in which braces and quotes nest. The search passes over one
unit after the other, and so it finds the end that the grammar gives.
-/
namespace CommentStrip

/-- Text between two quotes in an embedded expression. A backslash makes the next character
inert. -/
inductive QuotedText (quote : Char) : Text → Prop where
  | nil : QuotedText quote []
  | escape {c : Char} {rest : Text} : QuotedText quote rest → QuotedText quote ('\\' :: c :: rest)
  | plain {c : Char} {rest : Text} :
      c ≠ '\\' → c ≠ quote → QuotedText quote rest → QuotedText quote (c :: rest)

/-- An embedded expression up to the brace that matches its opener: every quote in it is closed, and
outside of the quotes every brace is matched. -/
inductive ExpressionText : Text → Prop where
  | nil : ExpressionText []
  | plain {c : Char} {rest : Text} :
      isExpressionQuote c = false → c ≠ '\x7b' → c ≠ '\x7d' → ExpressionText rest →
      ExpressionText (c :: rest)
  | quoted {quote : Char} {inner rest : Text} :
      isExpressionQuote quote = true → QuotedText quote inner → ExpressionText rest →
      ExpressionText (quote :: (inner ++ quote :: rest))
  | braced {inner rest : Text} :
      ExpressionText inner → ExpressionText rest →
      ExpressionText ('\x7b' :: (inner ++ '\x7d' :: rest))

/-- The part of a body that follows an expression inside `depth` more braces. -/
def BodyPart.outside : (depth : Nat) → BodyPart
  | 0 => .own
  | outer + 1 => .expression outer none

namespace BodyRule

/-- The text begins with the escape character. -/
def Escapes (rule : BodyRule) (text : Text) : Prop :=
  ∃ mark ∈ rule.escape, [mark] <+: text

/-- The text begins with the interpolation opener. -/
def Interpolates (rule : BodyRule) (text : Text) : Prop :=
  ∃ opener ∈ rule.interpolation, opener <+: text

/--
A unit of a body before the text `after`. What stands first decides on its form: the escape character
before the opener, and the opener before any other character. So an opener whose expression is never
closed begins no unit.
-/
inductive IsUnit (rule : BodyRule) : (unit after : Text) → Prop where
  /-- The escape character with the character that it makes inert. -/
  | escape {mark c : Char} {after : Text} : mark ∈ rule.escape → IsUnit rule [mark, c] after
  /-- The interpolation opener written twice. -/
  | doubled {opener after : Text} :
      opener ∈ rule.interpolation → ¬rule.Escapes (opener ++ opener ++ after) →
      IsUnit rule (opener ++ opener) after
  /-- The interpolation opener, an expression and the brace that closes it. -/
  | embedded {opener expression after : Text} :
      opener ∈ rule.interpolation →
      ¬rule.Escapes (opener ++ (expression ++ '\x7d' :: after)) →
      ¬opener <+: expression ++ '\x7d' :: after → ExpressionText expression →
      IsUnit rule (opener ++ (expression ++ ['\x7d'])) after
  /-- A character at which the closing quote does not stand. -/
  | single {c : Char} {after : Text} :
      ¬rule.Escapes (c :: after) → ¬rule.Interpolates (c :: after) →
      ¬rule.closer <+: c :: after → IsUnit rule [c] after

/-- A sequence of units before the text `after`. -/
inductive Units (rule : BodyRule) : (units after : Text) → Prop where
  | nil {after : Text} : Units rule [] after
  | cons {unit rest after : Text} :
      rule.IsUnit unit (rest ++ after) → Units rule rest after → Units rule (unit ++ rest) after

/-- The closing quote stands at the start of a text, and counts. -/
structure Closes (rule : BodyRule) (text : Text) : Prop where
  closer : rule.closer <+: text
  unescaped : ¬rule.Escapes text
  uninterpolated : ¬rule.Interpolates text

/-- The body ends at the index: it is a sequence of units up to there, where the closing quote
stands. -/
structure EndsAt (rule : BodyRule) (body : Text) (index : Nat) : Prop where
  units : rule.Units (body.take index) (body.drop index)
  closes : rule.Closes (body.drop index)

/-- The search in one part of a body passes over a text, and goes on in another part before the text
`later`. -/
def Passes (rule : BodyRule) (part : BodyPart) (passed : Text) (next : BodyPart) (later : Text) :
    Prop :=
  rule.closeFrom? 0 part (passed ++ later)
    = (rule.closeFrom? 0 next later).map (· + passed.length)

variable {rule : BodyRule}

section Passes

variable {part middle next : BodyPart} {passed more later : Text} {depth : Nat} {quote : Char}

/-- The search passes over what is inert. -/
private theorem closeFrom?_inert (inert : Nat) (part : BodyPart) (text : Text) :
    rule.closeFrom? inert part text
      = (rule.closeFrom? 0 part (text.drop inert)).map (· + inert) := by
  induction inert generalizing text with
  | zero => simp
  | succ inert ih =>
    cases text with
    | nil => simp [closeFrom?]
    | cons c rest =>
      rw [closeFrom?, ih, Option.map_map, List.drop_succ_cons]
      rfl

namespace Passes

theorem trans (first : rule.Passes part passed middle (more ++ later))
    (second : rule.Passes middle more next later) :
    rule.Passes part (passed ++ more) next later := by
  rw [Passes, List.append_assoc, first, second, Option.map_map, List.length_append]
  refine Option.map_congr fun index _ => ?_
  show index + more.length + passed.length = index + (passed.length + more.length)
  omega

theorem isSome (passes : rule.Passes part passed next later) :
    (rule.closeFrom? 0 part (passed ++ later)).isSome = (rule.closeFrom? 0 next later).isSome := by
  rw [passes, Option.isSome_map]

/-- A turn of the search passes over the text that it leaves behind. -/
theorem of_turn (opened : rule.interpolation ≠ some [])
    (turn : rule.searchStep? (part, passed ++ later) = some (next, later)) :
    rule.Passes part passed next later := by
  have lengths : (passed ++ later).length = passed.length + later.length := List.length_append
  rw [Passes]
  cases whole : passed ++ later with
  | nil => cases part <;> simp [whole, searchStep?] at turn
  | cons c rest =>
    rw [whole, searchStep?_eq rule opened, Option.map_eq_some_iff] at turn
    obtain ⟨⟨inert, after⟩, stepped, same⟩ := turn
    obtain ⟨rfl, rfl⟩ := Prod.mk.inj same
    rw [closeFrom?, stepped]
    simp only
    rw [closeFrom?_inert, Option.map_map]
    refine Option.map_congr fun index found => ?_
    -- a search that finds something has text left
    have left : inert < rest.length := by
      by_contra short
      rw [List.drop_eq_nil_of_le (by omega), closeFrom?] at found
      cases found
    rw [whole, List.length_cons, List.length_drop] at lengths
    show index + inert + 1 = index + passed.length
    omega

/-- In a quote, a backslash takes the next character with it. -/
theorem of_escape (opened : rule.interpolation ≠ some []) {c : Char} :
    rule.Passes (.expression depth (some quote)) ['\\', c] (.expression depth (some quote)) later :=
  of_turn opened (by simp [searchStep?, step])

theorem of_inner (opened : rule.interpolation ≠ some []) {c : Char} (unescaped : c ≠ '\\')
    (other : c ≠ quote) :
    rule.Passes (.expression depth (some quote)) [c] (.expression depth (some quote)) later :=
  of_turn opened (by simp [searchStep?, step, unescaped, other])

theorem of_plain (opened : rule.interpolation ≠ some []) {c : Char}
    (unquoted : isExpressionQuote c = false) (opens : c ≠ '\x7b') (closes : c ≠ '\x7d') :
    rule.Passes (.expression depth none) [c] (.expression depth none) later :=
  of_turn opened (by simp [searchStep?, step, unquoted, opens, closes])

theorem of_quote (opened : rule.interpolation ≠ some []) (mark : isExpressionQuote quote = true) :
    rule.Passes (.expression depth none) [quote] (.expression depth (some quote)) later :=
  of_turn opened (by simp [searchStep?, step, mark])

theorem of_brace (opened : rule.interpolation ≠ some []) :
    rule.Passes (.expression depth none) ['\x7b'] (.expression (depth + 1) none) later :=
  of_turn opened (by simp [searchStep?, step, isExpressionQuote])

/-- The search passes over the rest of a quote in an expression. -/
theorem of_quoted {inner : Text} (opened : rule.interpolation ≠ some [])
    (mark : isExpressionQuote quote = true) (quoted : QuotedText quote inner) :
    rule.Passes (.expression depth (some quote)) (inner ++ [quote]) (.expression depth none)
      later := by
  induction quoted with
  | nil =>
    -- no backslash is a quote
    have other : quote ≠ '\\' := by
      rintro rfl
      exact absurd mark (by decide)
    exact of_turn opened (by simp [searchStep?, step, other])
  | escape _ ih => exact (of_escape opened).trans ih
  | plain unescaped other _ ih => exact (of_inner opened unescaped other).trans ih

/-- The search passes over an expression and the brace that closes it, however deep it is. -/
theorem of_expression {expression : Text} (opened : rule.interpolation ≠ some [])
    (closed : ExpressionText expression) :
    rule.Passes (.expression depth none) (expression ++ ['\x7d']) (.outside depth) later := by
  induction closed generalizing depth later with
  | nil => exact of_turn opened (by cases depth <;> rfl)
  | plain unquoted opens closes _ ih => exact (of_plain opened unquoted opens closes).trans ih
  | @quoted quote inner rest mark quoted _ ih =>
    have passes : rule.Passes (.expression depth none)
        ([quote] ++ (inner ++ [quote] ++ (rest ++ ['\x7d']))) (.outside depth) later :=
      (of_quote opened mark).trans ((of_quoted opened mark quoted).trans ih)
    simpa using passes
  | @braced inner rest _ _ ihInner ihRest =>
    -- one brace deeper for the inner expression, and back for the rest
    have passes : rule.Passes (.expression depth none)
        (['\x7b'] ++ (inner ++ ['\x7d'] ++ (rest ++ ['\x7d']))) (.outside depth) later :=
      (of_brace opened).trans (ihInner.trans ihRest)
    simpa using passes

end Passes

end Passes

section Units

variable {unit before after text : Text}

/-- The turn where the opener stands: two of them are passed over, one begins an expression. -/
theorem searchStep?_opener {opener : Text} (opened : rule.interpolation ≠ some [])
    (mark : opener ∈ rule.interpolation) (unescaped : ¬rule.Escapes (opener ++ text)) :
    rule.searchStep? (.own, opener ++ text)
      = if opener.isPrefixOf text then some (.own, text.drop opener.length)
        else some (.expression 0 none, text) := by
  rw [Option.mem_def] at mark
  cases opener with
  | nil => exact absurd mark opened
  | cons first others =>
    have plain : rule.escape ≠ some first := by simpa [Escapes] using unescaped
    have stands := isPrefixOf_append_self (first :: others) text
    have past : (first :: others ++ text).drop (first :: others).length = text := List.drop_left
    have twice : (first :: others ++ text).drop (2 * (first :: others).length)
        = text.drop (first :: others).length := by
      rw [Nat.two_mul, ← List.drop_drop, past]
    rw [List.cons_append] at stands past twice ⊢
    rw [searchStep?, if_neg plain, mark, Option.filter_some, if_pos stands]
    simp only [past, twice]

/-- The turn at any other character: it is passed over, unless the closing quote stands there. -/
theorem searchStep?_plain {c : Char} (unescaped : ¬rule.Escapes (c :: text))
    (uninterpolated : ¬rule.Interpolates (c :: text)) :
    rule.searchStep? (.own, c :: text)
      = if rule.closer.isPrefixOf (c :: text) then none else some (.own, text) := by
  have plain : rule.escape ≠ some c := by simpa [Escapes] using unescaped
  have without : rule.interpolation.filter (·.isPrefixOf (c :: text)) = none := by
    simpa [Interpolates, Option.filter_eq_none_iff] using uninterpolated
  simp [searchStep?, plain, without]

/-- The search passes over a unit. -/
theorem Passes.of_unit (opened : rule.interpolation ≠ some []) (one : rule.IsUnit unit after) :
    rule.Passes .own unit .own after := by
  cases one with
  | escape mark => exact of_turn opened (by simp [searchStep?, Option.mem_def.mp mark])
  | @doubled opener _ mark unescaped =>
    refine of_turn opened ?_
    rw [List.append_assoc] at unescaped ⊢
    rw [searchStep?_opener opened mark unescaped, isPrefixOf_append_self, if_pos rfl,
      List.drop_left]
  | @embedded opener expression _ mark unescaped once closed =>
    have turn : rule.Passes .own opener (.expression 0 none) (expression ++ ['\x7d'] ++ after) := by
      refine of_turn opened ?_
      rw [← List.isPrefixOf_iff_prefix] at once
      rw [List.append_assoc, List.singleton_append, searchStep?_opener opened mark unescaped,
        if_neg once]
    exact turn.trans (of_expression opened closed)
  | single unescaped uninterpolated other =>
    refine of_turn opened ?_
    rw [← List.isPrefixOf_iff_prefix] at other
    rw [List.singleton_append, searchStep?_plain unescaped uninterpolated, if_neg other]

/-- The search passes over a sequence of units. -/
theorem Passes.of_units (opened : rule.interpolation ≠ some []) (units : rule.Units before after) :
    rule.Passes .own before .own after := by
  induction units with
  | nil => simp [Passes]
  | cons one _ ih => exact (of_unit opened one).trans ih

/-- The search ends where the closing quote counts. -/
theorem Closes.closeIndex? (opened : rule.interpolation ≠ some []) (closed : rule.closer ≠ [])
    (closes : rule.Closes text) : rule.closeIndex? text = some 0 := by
  cases text with
  | nil => exact absurd (List.prefix_nil.mp closes.closer) closed
  | cons c rest =>
    have turn := searchStep?_plain closes.unescaped closes.uninterpolated
    rw [if_pos (List.isPrefixOf_iff_prefix.mpr closes.closer), searchStep?_eq rule opened,
      Option.map_eq_none_iff] at turn
    rw [BodyRule.closeIndex?, closeFrom?, turn]

/-- A quote in an expression is closed if the search finds the end of the body after it. -/
theorem exists_quoted (opened : rule.interpolation ≠ some []) {depth : Nat} {quote : Char}
    (text : Text) (found : (rule.closeFrom? 0 (.expression depth (some quote)) text).isSome) :
    ∃ inner rest, text = inner ++ quote :: rest ∧ QuotedText quote inner := by
  cases text with
  | nil => simp [closeFrom?] at found
  | cons c rest =>
    by_cases escaped : c = '\\'
    · subst escaped
      cases rest with
      | nil => simp [closeFrom?, step] at found
      | cons d others =>
        have onward := (Passes.of_escape opened).isSome ▸ found
        obtain ⟨inner, rest, rfl, quoted⟩ := exists_quoted opened others onward
        exact ⟨'\\' :: d :: inner, rest, rfl, quoted.escape⟩
    by_cases closes : c = quote
    · exact ⟨[], rest, by rw [closes]; rfl, .nil⟩
    have onward := (Passes.of_inner opened escaped closes).isSome ▸ found
    obtain ⟨inner, rest, rfl, quoted⟩ := exists_quoted opened rest onward
    exact ⟨c :: inner, rest, rfl, quoted.plain escaped closes⟩
termination_by text.length

/-- An expression is closed if the search finds the end of the body after it. -/
theorem exists_expression (opened : rule.interpolation ≠ some []) {depth : Nat} (text : Text)
    (found : (rule.closeFrom? 0 (.expression depth none) text).isSome) :
    ∃ expression rest, text = expression ++ '\x7d' :: rest ∧ ExpressionText expression := by
  cases text with
  | nil => simp [closeFrom?] at found
  | cons c rest =>
    by_cases mark : isExpressionQuote c = true
    · -- the quote is closed, and the expression goes on after it
      have inside := (Passes.of_quote opened mark).isSome ▸ found
      obtain ⟨inner, rest, rfl, quoted⟩ := exists_quoted opened rest inside
      rw [List.append_cons] at inside
      have onward := (Passes.of_quoted opened mark quoted).isSome ▸ inside
      obtain ⟨expression, later, rfl, closed⟩ := exists_expression opened rest onward
      exact ⟨c :: (inner ++ c :: expression), later, by simp, .quoted mark quoted closed⟩
    by_cases opens : c = '\x7b'
    · -- the inner expression is closed, and the outer one goes on after it
      subst opens
      have inside := (Passes.of_brace opened).isSome ▸ found
      obtain ⟨inner, rest, rfl, braced⟩ := exists_expression opened rest inside
      rw [List.append_cons] at inside
      have onward := (Passes.of_expression opened braced).isSome ▸ inside
      obtain ⟨expression, later, rfl, closed⟩ := exists_expression opened rest onward
      exact ⟨'\x7b' :: (inner ++ '\x7d' :: expression), later, by simp, .braced braced closed⟩
    by_cases closes : c = '\x7d'
    · exact ⟨[], rest, by rw [closes]; rfl, .nil⟩
    rw [Bool.not_eq_true] at mark
    have onward := (Passes.of_plain opened mark opens closes).isSome ▸ found
    obtain ⟨expression, later, rfl, closed⟩ := exists_expression opened rest onward
    exact ⟨c :: expression, later, rfl, closed.plain mark opens closes⟩
termination_by text.length

/-- Where the search finds the end of a body, the closing quote or a unit stands at its start. -/
theorem closes_or_exists_unit (opened : rule.interpolation ≠ some [])
    (found : (rule.closeIndex? text).isSome) :
    rule.Closes text ∨ ∃ unit after, text = unit ++ after ∧ unit ≠ [] ∧ rule.IsUnit unit after := by
  -- in the order of the search: the escape character, the opener, the closing quote
  by_cases escapes : rule.Escapes text
  · obtain ⟨mark, known, rest, rfl⟩ := escapes
    rw [Option.mem_def] at known
    cases rest with
    | nil => simp [closeIndex?, closeFrom?, step, known] at found
    | cons c after => exact .inr ⟨[mark, c], after, rfl, by simp, .escape known⟩
  by_cases interpolates : rule.Interpolates text
  · obtain ⟨opener, known, rest, rfl⟩ := interpolates
    have nonempty : opener ≠ [] := by
      rintro rfl
      exact opened known
    have turn := searchStep?_opener opened known escapes
    by_cases twice : opener <+: rest
    · obtain ⟨after, rfl⟩ := twice
      rw [← List.append_assoc] at escapes ⊢
      exact .inr ⟨_, after, rfl, by simp [nonempty], .doubled known escapes⟩
    · -- the search finds the end, so the expression is closed before it
      rw [if_neg (by rwa [List.isPrefixOf_iff_prefix])] at turn
      have passes : rule.Passes .own opener (.expression 0 none) rest := .of_turn opened turn
      obtain ⟨expression, after, rfl, closed⟩ :=
        exists_expression opened rest (passes.isSome ▸ found)
      exact .inr ⟨opener ++ (expression ++ ['\x7d']), after, by simp, by simp [nonempty],
        .embedded known escapes twice closed⟩
  by_cases closer : rule.closer <+: text
  · exact .inl ⟨closer, escapes, interpolates⟩
  cases text with
  | nil => simp [closeIndex?, closeFrom?] at found
  | cons c after => exact .inr ⟨[c], after, rfl, by simp, .single escapes interpolates closer⟩

/-- Where the search finds the end of a body, there are units before it. -/
theorem endsAt_of_closeIndex? (opened : rule.interpolation ≠ some []) (closed : rule.closer ≠ [])
    (text : Text) {index : Nat} (found : rule.closeIndex? text = some index) :
    rule.EndsAt text index := by
  have finds : (rule.closeIndex? text).isSome := by rw [found, Option.isSome_some]
  rcases closes_or_exists_unit opened finds with closes | ⟨unit, after, rfl, nonempty, one⟩
  · rw [closes.closeIndex? opened closed] at found
    obtain rfl := Option.some.inj found
    exact ⟨.nil, closes⟩
  · -- the unit is the first, and the end of the rest is the end of the whole
    rw [closeIndex?, Passes.of_unit opened one, Option.map_eq_some_iff] at found
    obtain ⟨further, found, rfl⟩ := found
    have shorter : after.length < (unit ++ after).length := by
      have positive := List.length_pos_iff.mpr nonempty
      rw [List.length_append]
      omega
    obtain ⟨units, closes⟩ := endsAt_of_closeIndex? opened closed after found
    have rest : (unit ++ after).drop (further + unit.length) = after.drop further := by
      rw [Nat.add_comm, ← List.drop_drop, List.drop_left]
    refine ⟨?_, rest ▸ closes⟩
    rw [rest, Nat.add_comm, List.take_length_add_append]
    exact .cons (by rwa [List.take_append_drop]) units
termination_by text.length

/-- The search finds an end of a body. -/
theorem EndsAt.closeIndex? {body : Text} {index : Nat} (opened : rule.interpolation ≠ some [])
    (closed : rule.closer ≠ []) (ends : rule.EndsAt body index) :
    rule.closeIndex? body = some index := by
  have passes := Passes.of_units opened ends.units
  have stops := ends.closes.closeIndex? opened closed
  -- after the end of the body there is nothing for a closing quote to stand on
  have inside : index ≤ body.length := by
    by_contra outside
    have nothing := ends.closes.closer
    rw [List.drop_eq_nil_of_le (by omega), List.prefix_nil] at nothing
    exact closed nothing
  rw [BodyRule.closeIndex?] at stops ⊢
  rw [Passes, List.take_append_drop, stops] at passes
  rw [passes, Option.map_some, List.length_take, Nat.min_eq_left inside, Nat.zero_add]

end Units

/--
The search for a closing quote that is not empty comes to an end. It finds the quote exactly where
the units of the body end and the quote counts, and nothing if there is no such place; there is at
most one.
-/
theorem closeIndex?_iff_endsAt (rule : BodyRule) (opened : rule.interpolation ≠ some [])
    (closed : rule.closer ≠ []) (body : Text) :
    (WellFounded fun later earlier => rule.searchStep? earlier = some later)
      ∧ (∀ index, rule.closeIndex? body = some index ↔ rule.EndsAt body index)
      ∧ (rule.closeIndex? body = none ↔ ∀ index, ¬rule.EndsAt body index)
      ∧ ∀ one two, rule.EndsAt body one → rule.EndsAt body two → one = two := by
  have found (index : Nat) : rule.closeIndex? body = some index ↔ rule.EndsAt body index :=
    ⟨endsAt_of_closeIndex? opened closed body, EndsAt.closeIndex? opened closed⟩
  refine ⟨rule.wellFounded_search opened, found, ?_, ?_⟩
  · simp only [Option.eq_none_iff_forall_ne_some, ne_eq, found]
  · intro one two first second
    exact Option.some.inj (((found one).mpr first).symm.trans ((found two).mpr second))

/-- The quote of the literal, used again in an expression, does not end it. -/
theorem endsAt_after_reused_quote :
    let rule : BodyRule := ⟨['\x22'], some '\\', some ['\x7b']⟩
    let body : Text := "\x7bd[\x22k\x22]\x7d\x22+x".toList
    rule.interpolation ≠ some [] ∧ rule.closer ≠ [] ∧ rule.closeIndex? body = some 8
      ∧ rule.EndsAt body 8 ∧ ∀ index, rule.EndsAt body index → index = 8 := by
  intro rule body
  have opened : rule.interpolation ≠ some [] := by decide
  have closed : rule.closer ≠ [] := by decide
  have found : rule.closeIndex? body = some 8 := by decide +kernel
  obtain ⟨-, ends, -, only⟩ := closeIndex?_iff_endsAt rule opened closed body
  have here := (ends 8).mp found
  exact ⟨opened, closed, found, here, fun index there => only index 8 there here⟩

end BodyRule
end CommentStrip
