import Mathlib.Data.List.Pairwise
import Sml.Proofs.Advance
import Sml.Proofs.Generality

/-!
# Fresh names

The supply numbers the names it gives.  No name is given twice, not even in
its other form, with one more quote or without it.
-/

namespace Sml

open List Ty NameSupply

variable {store : Store} {first last : Nat} {names : List String}

namespace NameSupply

/-- The name with a number, as it is given for a variable that need not admit
equality. -/
def name (number : Nat) : String := "'*t" ++ toString number

theorem isEqualityName_name (number : Nat) : isEqualityName (name number) = false := by
  simp [isEqualityName, name]

theorem isEqualityName_equalityName (number : Nat) :
    isEqualityName (equalityName (name number)) = true := by
  simp [isEqualityName, equalityName, name]

theorem isEqualityName_freshLike (supply : NameSupply) (like : String) :
    isEqualityName (supply.freshLike like).1 = isEqualityName like := by
  simp only [freshLike, fresh]
  split
  · rename_i hequality
    rw [hequality]
    exact isEqualityName_equalityName _
  · rename_i hequality
    rw [Bool.eq_false_iff.mpr hequality]
    exact isEqualityName_name _

theorem name_injective {second : Nat} (h : name first = name second) : first = second := by
  apply toString_injective
  apply String.ext
  have htexts := congrArg String.toList h
  simpa [name] using htexts

end NameSupply

/-- The store binds none of the names that the supply has still to give. -/
def Store.IsFreshFrom (store : Store) (supply : NameSupply) : Prop :=
  ∀ number, supply.next ≤ number → store.get? (name number) = none ∧
      store.get? (equalityName (name number)) = none

theorem Store.IsFreshFrom.mono {supply later : NameSupply} (h : store.IsFreshFrom supply)
    (hle : supply.next ≤ later.next) : store.IsFreshFrom later :=
  fun number hnumber => h number (hle.trans hnumber)

/-- The name with a number, or its form for types that admit equality. -/
def NameSupply.IsForm (number : Nat) (name : String) : Prop :=
  name = NameSupply.name number ∨ name = equalityName (NameSupply.name number)

theorem NameSupply.IsForm.number_eq {number other : Nat} {name : String}
    (h : IsForm number name) (hother : IsForm other name) : number = other := by
  have hkinds : ∀ first second,
      NameSupply.name first ≠ equalityName (NameSupply.name second) := by
    intro first second heq
    have hequality := isEqualityName_equalityName second
    rw [← heq, isEqualityName_name] at hequality
    cases hequality
  rcases h with rfl | rfl
  · exact name_injective (hother.resolve_right (hkinds _ _))
  · exact name_injective (equalityName_injective
      (hother.resolve_left fun heq => hkinds _ _ heq.symm))

structure Issued (first last : Nat) (names : List String) : Prop where
  numbered : ∀ name ∈ names, ∃ number, first ≤ number ∧ number < last ∧
    NameSupply.IsForm number name
  once : names.Pairwise fun name other =>
    ∀ number, NameSupply.IsForm number name → ¬ NameSupply.IsForm number other

theorem Issued.nil (number : Nat) : Issued number number [] := ⟨by simp, .nil⟩

theorem issued_freshLike (supply : NameSupply) (like : String) :
    Issued supply.next (supply.next + 1) [(supply.freshLike like).1] := by
  refine ⟨fun name hname => ⟨supply.next, le_rfl, Nat.lt_succ_self _, ?_⟩, pairwise_singleton _ _⟩
  rw [mem_singleton.mp hname]
  simp only [freshLike, fresh]
  split
  · exact .inr rfl
  · exact .inl rfl

theorem Issued.append {middle : Nat} {others : List String} (h : Issued first middle names)
    (hothers : Issued middle last others) (hfirst : first ≤ middle) (hlast : middle ≤ last) :
    Issued first last (names ++ others) := by
  constructor
  · intro name hname
    rcases mem_append.mp hname with hname | hname
    · obtain ⟨number, hlow, hhigh, hform⟩ := h.numbered name hname
      exact ⟨number, hlow, hhigh.trans_le hlast, hform⟩
    · obtain ⟨number, hlow, hhigh, hform⟩ := hothers.numbered name hname
      exact ⟨number, hfirst.trans hlow, hhigh, hform⟩
  · refine pairwise_append.mpr ⟨h.once, hothers.once, ?_⟩
    intro name hname other hother number hform hform'
    obtain ⟨_, _, hhigh, hnumber⟩ := h.numbered name hname
    obtain ⟨_, hlow, _, hnumber'⟩ := hothers.numbered other hother
    rw [hnumber.number_eq hform] at hhigh
    rw [hnumber'.number_eq hform'] at hlow
    omega

theorem Issued.nodup (h : Issued first last names) : names.Nodup := by
  refine h.once.imp_of_mem fun hname _ hapart heq => ?_
  obtain ⟨number, _, _, hform⟩ := h.numbered _ hname
  exact hapart number hform (heq ▸ hform)

theorem Issued.isFresh {supply : NameSupply} (hstore : store.IsFreshFrom supply)
    (h : Issued supply.next last names) : store.IsFresh names := by
  constructor
  · intro name hname
    obtain ⟨number, hlow, _, rfl | rfl⟩ := h.numbered name hname
    · exact (hstore number hlow).1
    · exact (hstore number hlow).2
  · intro name hname hequality
    obtain ⟨number, hlow, _, rfl | rfl⟩ := h.numbered name hname
    · have hother := isEqualityName_equalityName number
      have : Std.Symm fun name other => ∀ number, NameSupply.IsForm number name →
          ¬ NameSupply.IsForm number other :=
        ⟨fun _ _ hapart number hform hform' => hapart number hform' hform⟩
      refine ⟨hother, fun hmem => ?_, (hstore number hlow).2⟩
      refine h.once.forall hname hmem (fun heq => ?_) number (.inl rfl) (.inr rfl)
      rw [← heq, hequality] at hother
      cases hother
    · rw [isEqualityName_equalityName] at hequality
      cases hequality

end Sml
