import Sml.Proofs.Instantiation

/-!
# What merging returns

The type that merging returns stands for what both types have become.  For
declared types and records it is put together from the parts.
-/

namespace Sml.Ty

open List Option Table

def Merged (fragment : Fragment) (term : Term) (σ : Subst) (merged : Ty) :
    Prop :=
  merged.isIn fragment = true ∧ merged.term.subst σ = term.subst σ

variable {fragment : Fragment} {σ : Subst}
variable {σ' : Subst} {found : List (String × Ty)}

def MergedAll (fragment : Fragment) (types : List Ty) (σ : Subst) (merged : List Ty) : Prop :=
  (∀ type ∈ merged, type.isIn fragment = true) ∧ merged.map (fun type => type.term.subst σ) =
      types.map fun type => type.term.subst σ

theorem Merged.later {term : Term} {merged : Ty} (h : Merged fragment term σ merged)
    (habsorbs : σ'.Absorbs σ) : Merged fragment term σ' merged :=
  ⟨h.1, by rw [← habsorbs.subst, h.2, habsorbs.subst]⟩

theorem con_subst_eq_iff (θ : Subst) (this that : TyCon) (thisArguments thatArguments : List Ty) :
    (con this thisArguments).term.subst θ = (con that thatArguments).term.subst θ ↔
      this.same that = true ∧ (thisArguments.map fun type => type.term.subst θ) =
          thatArguments.map fun type => type.term.subst θ := by
  simp [TyCon.same, Function.comp_def]

/-! ## Fields -/

private theorem record_subst_eq_mapValues (θ : Subst)
    (this that : List (String × Ty)) (complete : Bool) :
    (record this complete).term.subst θ = (record that complete).term.subst θ ↔
      mapValues (fun type => type.term.subst θ) this =
        mapValues (fun type => type.term.subst θ) that := by
  simp only [term_record, Term.subst_node, List.map_map, Term.node.injEq,
    Former.record.injEq, and_true, Table.keys, mapValues]
  induction this generalizing that with
  | nil => cases that <;> simp
  | cons field this ih =>
    cases that with
    | nil => simp
    | cons other that =>
      simp only [map_cons, List.cons.injEq, Prod.mk.injEq, Function.comp_apply, ← ih that]
      tauto

variable {this : List (String × Ty)}

/-- Records are made equal by making their common fields equal, if there are
no others. -/
theorem record_subst_eq_iff (θ : Subst) {that : List (String × Ty)}
    (hthis : Ordered this) (hthat : Ordered that) :
    (record this true).term.subst θ = (record that true).term.subst θ ↔
      (∀ field ∈ that, ∃ own, get? this field.1 = some own ∧
        own.term.subst θ = field.2.term.subst θ) ∧
      ∀ field ∈ this, field.1 ∈ keys that := by
  rw [record_subst_eq_mapValues]
  constructor
  · intro heq
    have hget : ∀ label, (get? this label).map (fun type => type.term.subst θ) =
          (get? that label).map fun type => type.term.subst θ := by
      intro label
      rw [← get?_mapValues, heq, get?_mapValues]
    refine ⟨?_, ?_⟩
    · intro field hfield
      have hlabel := hget field.1
      rw [get?_of_mem hthat hfield, map_some, map_eq_some_iff] at hlabel
      exact hlabel
    · intro field hfield
      rw [← keys_mapValues (fun type => type.term.subst θ), ← heq, keys_mapValues]
      exact mem_map.mpr ⟨field, hfield, rfl⟩
  · rintro ⟨hcommon, hno⟩
    apply eq_of_get? ((ordered_mapValues _ _).mpr hthis) ((ordered_mapValues _ _).mpr hthat)
    intro label
    rw [get?_mapValues, get?_mapValues]
    cases hfield : get? that label with
    | some type =>
      obtain ⟨own, hown, heq⟩ := hcommon _ (mem_of_get? hfield)
      rw [hown, map_some, heq, map_some]
    | none =>
      rw [get?_eq_none_iff] at hfield
      cases hown : get? this label with
      | none => rfl
      | some own => exact absurd (hno _ (mem_of_get? hown)) hfield

/-- The fields merged so far, one for each label that is done. -/
structure Collected (fragment : Fragment) (this : List (String × Ty))
    (done : List String) (σ : Subst) (found : List (String × Ty)) :
    Prop where
  ordered : Ordered found
  labels : ∀ label, label ∈ keys found ↔ label ∈ done
  merged : ∀ label type, get? found label = some type →
    ∃ own, get? this label = some own ∧ Merged fragment own.term σ type

variable {done : List String}

section

variable (h : Collected fragment this done σ found)
include h

theorem Collected.later (habsorbs : σ'.Absorbs σ) : Collected fragment this done σ' found where
  ordered := h.ordered
  labels := h.labels
  merged := by
    intro label type htype
    obtain ⟨own, hown, hmerged⟩ := h.merged label type htype
    exact ⟨own, hown, hmerged.later habsorbs⟩

theorem Collected.insert {label : String} {own type : Ty} (hown : get? this label = some own)
    (htype : Merged fragment own.term σ type) :
    Collected fragment this (label :: done) σ (insert found label type) where
  ordered := ordered_insert h.ordered _ _
  labels := by
    intro other
    rw [mem_keys_insert, h.labels, mem_cons]
  merged := by
    intro other otherType hother
    rw [get?_insert] at hother
    split at hother
    · rename_i heq
      cases hother
      exact ⟨own, heq ▸ hown, htype⟩
    · exact h.merged other otherType hother

theorem Collected.record (hthis : Ordered this) (hdone : ∀ field ∈ this, field.1 ∈ done) :
    Merged fragment (record this true).term σ (record found true) := by
  refine ⟨(isIn_record _ _).mpr ⟨rfl, h.ordered, ?_⟩, ?_⟩
  · intro field hfield
    obtain ⟨own, _, hmerged⟩ := h.merged _ _ (get?_of_mem h.ordered hfield)
    exact hmerged.1
  · rw [record_subst_eq_iff σ h.ordered hthis]
    refine ⟨?_, ?_⟩
    · intro field hfield
      have hlabel := (h.labels field.1).mpr (hdone field hfield)
      rw [← contains_iff, Table.contains, isSome_iff_exists] at hlabel
      obtain ⟨type, htype⟩ := hlabel
      obtain ⟨own, hown, hmerged⟩ := h.merged _ _ htype
      rw [get?_of_mem hthis hfield] at hown
      cases hown
      exact ⟨type, htype, hmerged.2⟩
    · intro field hfield
      obtain ⟨own, hown, _⟩ := h.merged _ _ (get?_of_mem h.ordered hfield)
      rw [← contains_iff, Table.contains, hown, isSome_some]

end

theorem foldlM_addField (instantiate : Store → Ty → Except TypeFault Ty) (disagree : MergeFault)
    (fields : List (String × Ty)) (found : List (String × Ty) × Store) :
    fields.foldlM (fun found field =>
          if Table.contains found.1 field.1 then pure found
          else addField instantiate disagree true found field) found =
      if ∀ field ∈ fields, field.1 ∈ Table.keys found.1 then .ok found
      else .error disagree := by
  induction fields with
  | nil =>
    rw [if_pos (by simp)]
    rfl
  | cons field fields ih =>
    rw [foldlM_cons]
    by_cases hcontains : contains found.1 field.1 = true
    · rw [if_pos hcontains]
      rw [contains_iff] at hcontains
      change List.foldlM _ found fields = _
      rw [ih]
      refine if_congr ?_ rfl rfl
      rw [forall_mem_cons, and_iff_right hcontains]
    · rw [if_neg hcontains]
      rw [contains_iff] at hcontains
      simp [addField, hcontains]

end Sml.Ty
