import CommentStrip.Lexeme.Quoted
import Mathlib.Algebra.Group.Nat.Even
import Mathlib.Data.List.DropRight
import Mathlib.Order.Bounds.Defs

/-!
# Escaped characters

A mark makes the next character inert, unless it is inert itself. A search that goes from left to right
keeps that in a flag; looking back from a character, it is whether an odd number of marks stands right
before it. So the search for the closing quote of a literal without embedded expressions finds the
first one that has an even number of escape characters right before it.
-/
namespace CommentStrip

namespace Text

/-- Whether a text ends with an odd number of the mark. The last one then escapes what comes next. -/
def endsEscaping (mark : Char) (text : Text) : Bool :=
  (text.rtakeWhile (· == mark)).length % 2 == 1

theorem endsEscaping_concat (mark : Char) (text : Text) (c : Char) :
    endsEscaping mark (text ++ [c]) = (!text.endsEscaping mark && c == mark) := by
  rw [endsEscaping, endsEscaping, List.rtakeWhile_concat]
  cases c == mark with
  | true =>
    rw [if_pos rfl, List.length_append, List.length_singleton, Bool.and_true, Bool.eq_iff_iff]
    simp only [beq_iff_eq, Bool.not_eq_true', beq_eq_false_iff_ne]
    omega
  | false => simp

/-- From left to right, a mark escapes the next character unless it is escaped itself. -/
theorem foldl_escaped (mark : Char) (text : Text) :
    text.foldl (fun escaped c => !escaped && c == mark) false = text.endsEscaping mark := by
  induction text using List.reverseRecOn with
  | nil => rfl
  | append_singleton earlier last ih => rw [List.foldl_concat, ih, endsEscaping_concat]

theorem not_endsEscaping_iff {mark : Char} {text : Text} :
    text.endsEscaping mark = false ↔ Even (text.rtakeWhile (· == mark)).length := by
  rw [endsEscaping, beq_eq_false_iff_ne, Nat.even_iff]
  omega

end Text

/-- What a search among some indices answers: the least of them, or nothing if there is none. -/
def IsFirst (indices : Set Nat) : Option Nat → Prop
  | some index => IsLeast indices index
  | none => ∀ index, index ∉ indices

namespace IsFirst

variable {indices : Set Nat} {found : Option Nat}

theorem of_zero_mem (here : 0 ∈ indices) : IsFirst indices (some 0) :=
  ⟨here, fun _ _ => Nat.zero_le _⟩

/-- Where zero is passed over, the search goes on among the indices after it. -/
theorem map_succ (absent : 0 ∉ indices) (later : IsFirst {index | index + 1 ∈ indices} found) :
    IsFirst indices (found.map (· + 1)) := by
  cases found with
  | none =>
    intro index member
    cases index with
    | zero => exact absent member
    | succ index => exact later index member
  | some first =>
    refine ⟨later.1, fun index member => ?_⟩
    cases index with
    | zero => exact absurd member absent
    | succ index => exact Nat.succ_le_succ (later.2 member)

end IsFirst

namespace BodyRule

/-- Whether a part of a body leaves the next character inert. Without an escape character none does. -/
def escapesAfter (rule : BodyRule) (passed : Text) : Bool :=
  rule.escape.any passed.endsEscaping

/-- The indices of the rest of a body, which comes after `passed`, where the closing quote stands and
is not escaped. -/
def closersAfter (rule : BodyRule) (passed rest : Text) : Set Nat :=
  {index | rule.closer <+: rest.drop index ∧ rule.escapesAfter (passed ++ rest.take index) = false}

variable {rule : BodyRule} {passed rest : Text} {c : Char}

theorem escapesAfter_nil : rule.escapesAfter [] = false := by
  cases known : rule.escape <;> simp [escapesAfter, known, Text.endsEscaping]

theorem escapesAfter_concat :
    rule.escapesAfter (passed ++ [c]) = (!rule.escapesAfter passed && rule.escape == some c) := by
  cases known : rule.escape with
  | none => simp [escapesAfter, known]
  | some mark =>
    simp only [escapesAfter, known, Option.any_some, Text.endsEscaping_concat, Option.some_beq_some]
    rw [Bool.beq_comm]

theorem zero_mem_closersAfter :
    0 ∈ rule.closersAfter passed rest
      ↔ rule.closer <+: rest ∧ rule.escapesAfter passed = false := by
  simp [closersAfter]

theorem succ_mem_closersAfter (index : Nat) :
    index + 1 ∈ rule.closersAfter passed (c :: rest)
      ↔ index ∈ rule.closersAfter (passed ++ [c]) rest := by
  simp [closersAfter]

/-- Where no embedded expression begins, only escape characters and the closing quote count. -/
theorem step_of_plain (plain : rule.interpolation = none) :
    rule.step c rest .own
      = if rule.escape = some c then some (1, .own)
        else if rule.closer.isPrefixOf (c :: rest) then none else some (0, .own) := by
  simp [step, interpolationAt?, plain]

section Search

variable (plain : rule.interpolation = none) (closed : rule.closer ≠ [])
  (apart : ∀ mark ∈ rule.escape, mark ∉ rule.closer)

include plain

/-- Where no closing quote counts, the search passes over one character. -/
theorem closeFrom?_of_not_mem (other : 0 ∉ rule.closersAfter passed (c :: rest)) :
    rule.closeFrom? (rule.escapesAfter passed).toNat .own (c :: rest)
      = (rule.closeFrom? (rule.escapesAfter (passed ++ [c])).toNat .own rest).map (· + 1) := by
  rw [escapesAfter_concat]
  rw [zero_mem_closersAfter] at other
  cases escaped : rule.escapesAfter passed with
  | true => rfl
  | false =>
    have absent : ¬rule.closer.isPrefixOf (c :: rest) = true := by
      rw [List.isPrefixOf_iff_prefix]
      exact fun stands => other ⟨stands, escaped⟩
    rw [Bool.toNat_false, closeFrom?, step_of_plain plain]
    by_cases mark : rule.escape = some c
    · simp [mark]
    · have unmarked : (rule.escape == some c) = false := beq_eq_false_iff_ne.mpr mark
      simp [mark, absent, unmarked]

include closed apart

/-- Where a closing quote counts, the search stops. -/
theorem closeFrom?_of_mem (here : 0 ∈ rule.closersAfter passed (c :: rest)) :
    rule.closeFrom? (rule.escapesAfter passed).toNat .own (c :: rest) = some 0 := by
  obtain ⟨stands, unescaped⟩ := zero_mem_closersAfter.mp here
  -- the quote begins here, so that no escape character does
  have first : c ∈ rule.closer := by
    obtain ⟨later, whole⟩ := stands
    cases quote : rule.closer with
    | nil => exact absurd quote closed
    | cons d others =>
      rw [quote] at whole
      rw [(List.cons.inj whole).1]
      exact List.mem_cons_self
  have unmarked : rule.escape ≠ some c := fun mark => apart c mark first
  rw [unescaped, Bool.toNat_false, closeFrom?, step_of_plain plain, if_neg unmarked,
    if_pos (List.isPrefixOf_iff_prefix.mpr stands)]

/-- The search goes on from any place in a body to the first closing quote that is not escaped. -/
theorem isFirst_closeFrom? :
    IsFirst (rule.closersAfter passed rest)
      (rule.closeFrom? (rule.escapesAfter passed).toNat .own rest) := by
  induction rest generalizing passed with
  | nil =>
    rintro index ⟨stands, -⟩
    rw [List.drop_nil, List.prefix_nil] at stands
    exact closed stands
  | cons c rest ih =>
    by_cases here : 0 ∈ rule.closersAfter passed (c :: rest)
    · rw [closeFrom?_of_mem plain closed apart here]
      exact .of_zero_mem here
    · rw [closeFrom?_of_not_mem plain here]
      refine .map_succ here ?_
      simp only [succ_mem_closersAfter]
      exact ih

theorem isFirst_closeIndex? (body : Text) :
    IsFirst (rule.closersAfter [] body) (rule.closeIndex? body) := by
  have first := @isFirst_closeFrom? rule [] body plain closed apart
  rwa [escapesAfter_nil] at first

end Search

/--
The search for a closing quote that is not empty, where no embedded expression can begin. With an
escape character, which is not in the closing quote, it finds the first place where the closing quote
stands and an even number of escape characters comes right before it. Without one it finds the first
place where the closing quote stands.
-/
theorem isFirst_closeIndex?_of_plain (closer body : Text) (closed : closer ≠ []) :
    (∀ mark, mark ∉ closer →
      IsFirst {index | closer <+: body.drop index
          ∧ Even ((body.take index).rtakeWhile (· == mark)).length}
        (closeIndex? ⟨closer, some mark, none⟩ body))
      ∧ IsFirst {index | closer <+: body.drop index} (closeIndex? ⟨closer, none, none⟩ body) := by
  constructor
  · intro mark apart
    have first := @isFirst_closeIndex? ⟨closer, some mark, none⟩ rfl closed (by simpa using apart) body
    simpa only [closersAfter, escapesAfter, Option.any_some, Text.not_endsEscaping_iff,
      List.nil_append] using first
  · have first := @isFirst_closeIndex? ⟨closer, none, none⟩ rfl closed (by simp) body
    simpa only [closersAfter, escapesAfter, Option.any_none, and_true] using first

/-- A closing quote of three characters may begin with the character after an escaped one. A raw
literal ends one character earlier. -/
theorem isFirst_closeIndex?_of_tripled :
    let closer : Text := "\x22\x22\x22".toList
    let body : Text := "\\\x22\x22\x22\x22".toList
    closer ≠ [] ∧ '\\' ∉ closer
      ∧ closeIndex? ⟨closer, some '\\', none⟩ body = some 2
      ∧ IsLeast {index | closer <+: body.drop index
          ∧ Even ((body.take index).rtakeWhile (· == '\\')).length} 2
      ∧ closeIndex? ⟨closer, none, none⟩ body = some 1
      ∧ IsLeast {index | closer <+: body.drop index} 1 := by
  intro closer body
  have closed : closer ≠ [] := by decide
  have apart : '\\' ∉ closer := by decide
  obtain ⟨escaped, raw⟩ := isFirst_closeIndex?_of_plain closer body closed
  have found : closeIndex? ⟨closer, some '\\', none⟩ body = some 2 := by decide +kernel
  have foundRaw : closeIndex? ⟨closer, none, none⟩ body = some 1 := by decide +kernel
  have first := escaped '\\' apart
  rw [found] at first
  rw [foundRaw] at raw
  exact ⟨closed, apart, found, first, foundRaw, raw⟩

end BodyRule

end CommentStrip
