import Mathlib.Data.List.Perm.Subperm
import Mathlib.Tactic.IntervalCases
import Sml.Dynamic.Value
import Sml.Proofs.Variables
import Sml.Proofs.Wording
import Sml.Static.TyText

/-!
# Records that are tuples

A table in order has the labels `1`, …, `n` exactly if it is the table of a
tuple, and then each element stands under its position.
-/

namespace Sml

open List Table

open Ty (numbered)

variable {α β : Type}
variable {first number : Nat}
variable {elements : List α} {fields : Table α}

theorem length_numbered (elements : List α) (first : Nat) :
    (numbered first elements).length = elements.length := by
  rw [← length_map (·.2), Ty.numbered_values]

theorem exists_mem_numbered (first : Nat) {element : α} (h : element ∈ elements) :
    ∃ entry ∈ numbered first elements, entry.2 = element := by
  rwa [← Ty.numbered_values elements first, mem_map] at h

theorem perm_numbered (elements : List α) :
    (ofList (numbered 1 elements)).Perm (numbered 1 elements) :=
  perm_ofList (Ty.nodup_numbered elements 1)

theorem eq_of_perm {first second : Table α} (hfirst : Ordered first)
    (hsecond : Ordered second) (h : first.Perm second) : first = second := by
  refine h.eq_of_pairwise ?_ (pairwise_map.mp hfirst) (pairwise_map.mp hsecond)
  intro left right _ _ hlt hgt
  exact absurd hlt hgt.asymm

theorem ofList_of_ordered (h : Ordered fields) : ofList fields = fields :=
  eq_of_perm (ordered_ofList fields) h (perm_ofList (h.imp fun hlt => hlt.ne))

theorem mapM_get?_eq_some {count : Nat} :
    (range' first count).mapM (fun position =>
        get? fields (toString position)) = some elements ↔
      elements.length = count ∧ ∀ entry ∈ numbered first elements,
        get? fields entry.1 = some entry.2 := by
  induction count generalizing first elements with
  | zero => cases elements <;> simp [numbered]
  | succ count ih =>
    rw [range'_succ, mapM_cons]
    constructor
    · intro h
      obtain ⟨element, helement, h⟩ := Option.bind_eq_some_iff.mp h
      obtain ⟨others, hothers, h⟩ := Option.bind_eq_some_iff.mp h
      cases h
      obtain ⟨hlength, hentries⟩ := ih.mp hothers
      simp only [numbered, length_cons, hlength, forall_mem_cons]
      exact ⟨trivial, helement, hentries⟩
    · rintro ⟨hlength, hentries⟩
      cases elements with
      | nil => cases hlength
      | cons element others =>
        simp only [numbered, forall_mem_cons] at hentries
        have hothers := ih.mpr ⟨by simpa using hlength, hentries.2⟩
        rw [hentries.1, hothers]
        rfl

theorem mapM_range (fields : Table α) (count : Nat) : (range count).mapM (fun index =>
    get? fields (toString (index + 1))) = (range' 1 count).mapM fun position =>
      get? fields (toString position) := by
  rw [range'_eq_map_range, mapM_map]
  simp only [Function.comp_def, Nat.add_comm 1]

/-- What stands under `1`, …, `n` in a table of `n` entries is the tuple that
the table is. -/
theorem mapM_range_eq_some (hordered : Ordered fields) :
    (range fields.length).mapM (fun index =>
        get? fields (toString (index + 1))) = some elements ↔
      fields = ofList (numbered 1 elements) := by
  rw [mapM_range, mapM_get?_eq_some]
  have hperm := perm_numbered elements
  have hnodup := Ty.nodup_numbered elements 1
  constructor
  · rintro ⟨hlength, hentries⟩
    have hsubset : numbered 1 elements ⊆ fields :=
      fun entry hentry => mem_of_get? (hentries entry hentry)
    have hfields : (numbered 1 elements).Perm fields :=
      (hnodup.of_map.subperm hsubset).perm_of_length_le (by rw [length_numbered, hlength])
    exact eq_of_perm hordered (ordered_ofList _) (hfields.symm.trans hperm.symm)
  · intro h
    constructor
    · rw [h, hperm.length_eq, length_numbered]
    · intro entry hentry
      rw [h]
      exact get?_ofList_of_nodup hnodup hentry

theorem Value.asTuple?_tuple (values : List Value) : (tuple values).asTuple? = some values :=
  (mapM_range_eq_some (ordered_ofList _)).mpr rfl

theorem mapM_get?_mapValues (f : α → β) (fields : Table α) (count : Nat) :
    (range count).mapM (fun index =>
        get? (mapValues f fields) (toString (index + 1))) =
      ((range count).mapM fun index =>
        get? fields (toString (index + 1))).map (map f) := by
  induction range count with
  | nil => rfl
  | cons index indices ih =>
    rw [mapM_cons, mapM_cons, ih, get?_mapValues]
    cases get? fields (toString (index + 1)) with
    | none => rfl
    | some element =>
      cases indices.mapM fun index =>
          get? fields (toString (index + 1)) with
      | none | some => rfl

namespace Ty

theorem tupleElements?_eq_some (hordered : Ordered fields) :
    tupleElements? fields true = some elements ↔
      2 ≤ elements.length ∧ fields = ofList (numbered 1 elements) := by
  unfold tupleElements?
  constructor
  · intro h
    split at h
    · rename_i hlength
      have hfields := (mapM_range_eq_some hordered).mp h
      refine ⟨?_, hfields⟩
      have hperm := (perm_numbered elements).length_eq
      rw [← hfields, length_numbered] at hperm
      simpa [hperm] using hlength
    · cases h
  · rintro ⟨hlength, hfields⟩
    have hperm := (perm_numbered elements).length_eq
    rw [← hfields, length_numbered] at hperm
    rw [if_pos (by simpa [hperm] using hlength)]
    exact (mapM_range_eq_some hordered).mpr hfields

theorem tupleElements?_mapValues (f : α → β) (fields : Table α) (complete : Bool) :
    tupleElements? (mapValues f fields) complete =
      (tupleElements? fields complete).map (map f) := by
  unfold tupleElements?
  rw [show (mapValues f fields).length = fields.length by simp [mapValues]]
  split
  · exact mapM_get?_mapValues f fields fields.length
  · rfl

end Ty

/-! ## Positions as labels -/

theorem head?_decimal_ne (h : 0 < number) : (decimal number).head? ≠ some '0' := by
  unfold decimal
  induction number using Nat.strongRecOn with
  | ind number ih =>
    by_cases hsmall : number < 10
    · rw [Nat.toDigits_of_lt_base hsmall]
      interval_cases number <;> decide
    · have hlarge := Nat.not_lt.mp hsmall
      rw [Nat.toDigits_of_base_le (by omega) hlarge, head?_append]
      have hhead := ih (number / 10) (by omega) (by omega)
      obtain ⟨c, digits, hdigits⟩ :=
        exists_cons_of_ne_nil (Nat.toDigits_ne_nil : Nat.toDigits 10 (number / 10) ≠ [])
      rw [hdigits] at hhead ⊢
      simpa using hhead

theorem isLabel_toString (h : 0 < number) : isLabel (toString number) = true := by
  have hposition : isPosition (toString number) = true := by
    have hhead := head?_decimal_ne h
    have hdigits := fun c => @isDigit_of_mem_decimal number c
    unfold isPosition
    rw [toList_toString]
    split
    · rename_i hnil
      exact absurd hnil Nat.toDigits_ne_nil
    · rename_i c rest hcons
      rw [hcons] at hhead hdigits
      simp only [Bool.and_eq_true, bne_iff_ne, all_eq_true]
      exact ⟨by simpa using hhead, hdigits⟩
  rw [isLabel, hposition, Bool.or_true]

theorem isLabel_of_mem_numbered (hfirst : 0 < first) {entry : String × α}
    (h : entry ∈ numbered first elements) : isLabel entry.1 = true := by
  have hlabel := mem_map_of_mem (f := (·.1)) h
  rw [Ty.numbered_labels] at hlabel
  obtain ⟨number, hnumber, hentry⟩ := mem_map.mp hlabel
  rw [← hentry]
  exact isLabel_toString (by have := mem_range'_1.mp hnumber; omega)

end Sml
