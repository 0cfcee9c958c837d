import Mathlib.Tactic.Ring
import Sml.Evaluation.Primitive
import Sml.Proofs.TupleFields

/-!
# Integer division

Machine division cuts the places of a quotient off.  Where that rounds a
negative quotient up, one is taken from the quotient and the divisor is added
to the remainder; neither leaves the sixty-four bits.
-/

namespace Sml

open Int Integer

namespace Integer

section Floored

variable {a b : Int}

theorem tmod_neg_iff (h : a.tmod b ≠ 0) : a.tmod b < 0 ↔ a < 0 := by
  constructor
  · intro hneg
    by_contra hpos
    have := tmod_nonneg b (not_lt.mp hpos)
    omega
  · intro hneg
    have hpos := tmod_nonneg b (a := -a) (by omega)
    rw [neg_tmod] at hpos
    omega

theorem natAbs_tmod_lt (hb : b ≠ 0) : (a.tmod b).natAbs < b.natAbs := by
  rw [natAbs_tmod]
  exact Nat.mod_lt _ (by omega)

theorem floored_of_truncated (hb : b ≠ 0) :
    if a.tmod b ≠ 0 ∧ (a < 0 ↔ 0 ≤ b) then a.fdiv b = a.tdiv b - 1 ∧ a.fmod b = a.tmod b + b
    else a.fdiv b = a.tdiv b ∧ a.fmod b = a.tmod b := by
  have hsum := mul_tdiv_add_tmod a b
  have hsmall := natAbs_tmod_lt (a := a) hb
  have hsign := @tmod_neg_iff a b
  have hshift : b * (a.tdiv b - 1) = b * a.tdiv b - b := by ring
  rcases lt_or_gt_of_ne hb with hneg | hpos
  · rw [Int.fdiv_fmod_unique' hneg, Int.fdiv_fmod_unique' hneg]
    split <;> omega
  · rw [Int.fdiv_fmod_unique hpos, Int.fdiv_fmod_unique hpos]
    split <;> omega

theorem fmod_between (a : Int) (hb : b ≠ 0) :
    0 < b ∧ 0 ≤ a.fmod b ∧ a.fmod b < b ∨ b < 0 ∧ b < a.fmod b ∧ a.fmod b ≤ 0 := by
  rcases lt_or_gt_of_ne hb with hneg | hpos
  · exact .inr ⟨hneg, ((Int.fdiv_fmod_unique' hneg).mp ⟨rfl, rfl⟩).2⟩
  · exact .inl ⟨hpos, ((Int.fdiv_fmod_unique hpos).mp ⟨rfl, rfl⟩).2⟩

/-- A quotient that is not whole has a divisor of at least two. -/
theorem natAbs_tdiv_le (hb : b ≠ 0) (h : a.tmod b ≠ 0) : (a.tdiv b).natAbs ≤ a.natAbs / 2 := by
  have hrest : a.natAbs % b.natAbs ≠ 0 := by
    rw [← natAbs_tmod]
    omega
  have hone : b.natAbs ≠ 1 := fun hone => hrest (by rw [hone, Nat.mod_one])
  rw [natAbs_tdiv]
  exact Nat.div_le_div_left (by omega) (by decide)

end Floored

/-- The machine operations of a division that are carried out give the numbers
that they stand for. -/
structure Exact (left right : Int64) : Prop where
  quotient : (left / right).toInt = left.toInt.tdiv right.toInt
  remainder : (left % right).toInt = left.toInt.tmod right.toInt
  decrement : left % right ≠ 0 → (left < 0 ↔ 0 ≤ right) →
    (left / right - 1).toInt = (left / right).toInt - 1
  addition : left % right ≠ 0 → (left % right < 0 ↔ 0 ≤ right) →
    (left % right + right).toInt = (left % right).toInt + right.toInt

variable {left right : Int64}

theorem toInt_ne_zero (h : right ≠ 0) : right.toInt ≠ 0 := fun hzero =>
  h (Int64.toInt_inj.mp hzero)

theorem exact_of_ne (hzero : right ≠ 0) (h : ¬(left = Int64.minValue ∧ right = -1)) :
    Exact left right := by
  have hquotient : (left / right).toInt = left.toInt.tdiv right.toInt := by
    rcases not_and_or.mp h with hne | hne
    · exact Int64.toInt_div_of_ne_left _ _ hne
    · exact Int64.toInt_div_of_ne_right _ _ hne
  have hremainder := Int64.toInt_mod left right
  have hsmall := natAbs_tmod_lt (a := left.toInt) (toInt_ne_zero hzero)
  have hleft := And.intro left.le_toInt left.toInt_lt
  have hright := And.intro right.le_toInt right.toInt_lt
  refine ⟨hquotient, hremainder, fun hrest hsigns => ?_, fun hrest hsigns => ?_⟩
  · have hhalf := natAbs_tdiv_le (toInt_ne_zero hzero) (hremainder ▸ toInt_ne_zero hrest)
    rw [Int64.toInt_sub, hquotient]
    exact bmod_eq_of_le (by simp; omega) (by simp; omega)
  · rw [Int64.lt_iff_toInt_lt, Int64.le_iff_toInt_le, hremainder] at hsigns
    rw [Int64.toInt_add, hremainder]
    simp at hsigns
    exact bmod_eq_of_le (by simp; omega) (by simp; omega)

theorem truncated_iff (h : Exact left right) :
    left.toInt.tmod right.toInt ≠ 0 ∧ (left.toInt < 0 ↔ 0 ≤ right.toInt) ↔
      left % right ≠ 0 ∧ (left < 0 ↔ 0 ≤ right) := by
  rw [← h.remainder, Int64.lt_iff_toInt_lt, Int64.le_iff_toInt_le, ne_eq, ne_eq,
    ← Int64.toInt_inj (y := 0)]
  rfl

theorem div?_floored (hzero : right ≠ 0) (h : ¬(left = Int64.minValue ∧ right = -1)) :
    ∃ quotient, div? left right = some quotient ∧
      quotient.toInt = left.toInt.fdiv right.toInt := by
  have hexact := exact_of_ne hzero h
  have hfloored := floored_of_truncated (a := left.toInt) (toInt_ne_zero hzero)
  rw [div?, if_neg h]
  simp only [truncated_iff hexact, ← hexact.quotient] at hfloored
  split at hfloored
  · rename_i hup
    rw [if_pos hup]
    exact ⟨_, rfl, by rw [hexact.decrement hup.1 hup.2, hfloored.1]⟩
  · rename_i hdown
    rw [if_neg hdown]
    exact ⟨_, rfl, hfloored.1.symm⟩

theorem mod_floored (hzero : right ≠ 0) (h : ¬(left = Int64.minValue ∧ right = -1)) :
    (mod left right).toInt = left.toInt.fmod right.toInt := by
  have hexact := exact_of_ne hzero h
  have hfloored := floored_of_truncated (a := left.toInt) (toInt_ne_zero hzero)
  have hremainder : (if right = -1 then 0 else left % right) = left % right := by
    split
    · rename_i hone
      rw [← Int64.toInt_inj, hexact.remainder, hone]
      exact (tmod_neg _ 1).trans (tmod_one _) |>.symm
    · rfl
  -- The sign of a remainder that is not zero is the sign of the dividend.
  have hsign : left % right ≠ 0 → (left % right < 0 ↔ left < 0) := fun hrest => by
    rw [Int64.lt_iff_toInt_lt, Int64.lt_iff_toInt_lt, hexact.remainder]
    exact tmod_neg_iff (hexact.remainder ▸ toInt_ne_zero hrest)
  rw [mod, hremainder]
  simp only [truncated_iff hexact] at hfloored
  split at hfloored
  · rename_i hup
    have hsigns := (hsign hup.1).trans hup.2
    rw [if_pos ⟨hup.1, hsigns⟩, hexact.addition hup.1 hsigns, hfloored.2, hexact.remainder]
  · rename_i hdown
    rw [if_neg fun hup => hdown ⟨hup.1, (hsign hup.1).symm.trans hup.2⟩, hfloored.2,
      hexact.remainder]

end Integer

open Primitive in
/-- Division by zero raises `Div`.  The one quotient that does not fit raises
`Overflow`, and leaves nothing.  Every other quotient is rounded down, with a
remainder that is zero or has the sign of the divisor and is smaller, and all
that is computed on the way fits into sixty-four bits. -/
theorem division_floored (left right : Int64) (tree : ScopeTree) :
    let pair := Value.tuple [.int left, .int right]
    let floor := left.toInt.fdiv right.toInt
    if right = 0 then
      div.apply pair tree = .error (.raised BasicExn.div.value) tree ∧
        mod.apply pair tree = .error (.raised BasicExn.div.value) tree
    else if left = Int64.minValue ∧ right = -1 then
      div.apply pair tree = .error (.raised BasicExn.overflow.value) tree ∧
        mod.apply pair tree = .ok (.int 0) tree
    else
      ∃ quotient remainder, div.apply pair tree = .ok (.int quotient) tree ∧
        mod.apply pair tree = .ok (.int remainder) tree ∧
        quotient.toInt = floor ∧ remainder.toInt = left.toInt - right.toInt * floor ∧
        (remainder = 0 ∨ (remainder < 0 ↔ right < 0)) ∧
        remainder.toInt.natAbs < right.toInt.natAbs ∧ Integer.Exact left right := by
  intro pair floor
  have hpair : pair.asTuple? = some [.int left, .int right] := Value.asTuple?_tuple _
  have hdiv : div.apply pair = if right = 0 then Eval.raiseBasic .div
      else Eval.orOverflow (div? left right) := by
    rw [apply, integral, hpair]
  have hmod : mod.apply pair = if right = 0 then Eval.raiseBasic .div
      else pure (.int (mod left right)) := by
    rw [apply, integral, hpair]
  rw [hdiv, hmod]
  split
  · exact ⟨rfl, rfl⟩
  · rename_i hzero
    split
    · rename_i hmin
      obtain ⟨rfl, rfl⟩ := hmin
      exact ⟨rfl, rfl⟩
    · rename_i hfits
      obtain ⟨quotient, hquotient, hfloor⟩ := div?_floored hzero hfits
      have hremainder := mod_floored hzero hfits
      rw [hquotient]
      have hbetween := fmod_between left.toInt (toInt_ne_zero hzero)
      rw [← hremainder] at hbetween
      refine ⟨_, _, rfl, rfl, hfloor, ?_, ?_, by omega, exact_of_ne hzero hfits⟩
      · rw [hremainder, fmod_def]
      · rw [← Int64.toInt_inj, Int64.lt_iff_toInt_lt, Int64.lt_iff_toInt_lt, Int64.toInt_zero]
        omega

end Sml
