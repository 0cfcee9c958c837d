import Sml.Proofs.Variables
import Sml.Static.Merge

/-!
# What types are made of

A type without quantifiers and with complete records only is made of declared
types and of variables, each with its domain.
-/

namespace Sml

open List

variable {occurs' : String → List Ty → Prop}

namespace Ty

/-- A type without quantifiers and with complete records, made of some
declared types and of some occurrences of variables, each with its domain. -/
inductive MadeOf (anys : Prop) (heads : TyCon → Nat → Prop)
    (occurs : String → List Ty → Prop) : Ty → Prop
  | any : anys → MadeOf anys heads occurs .any
  | var {name : String} {domain : List Ty} (free : Bool) :
      occurs name domain → MadeOf anys heads occurs (.var name domain free)
  | record {fields : List (String × Ty)} :
      (∀ field ∈ fields, MadeOf anys heads occurs field.2) →
      MadeOf anys heads occurs (.record fields true)
  | arrow {parameter result : Ty} :
      MadeOf anys heads occurs parameter → MadeOf anys heads occurs result →
      MadeOf anys heads occurs (.arrow parameter result)
  | con {head : TyCon} {arguments : List Ty} :
      heads head arguments.length →
      (∀ argument ∈ arguments, MadeOf anys heads occurs argument) →
      MadeOf anys heads occurs (.con head arguments)
  | tuple {elements : List Ty} :
      (∀ element ∈ elements, MadeOf anys heads occurs element) →
      MadeOf anys heads occurs (.tuple elements)

def Makes (anys : Prop) (heads : TyCon → Nat → Prop) (occurs : String → List Ty → Prop) : Ty → Prop
  | .any => anys
  | .var name domain _ => occurs name domain
  | .bind _ _ _ _ => False
  | .record _ complete => complete = true
  | .arrow _ _ | .tuple _ => True
  | .con head arguments => heads head arguments.length

variable {anys : Prop} {heads : TyCon → Nat → Prop} {occurs : String → List Ty → Prop} {type : Ty}

theorem madeOf_iff (type : Ty) :
    type.MadeOf anys heads occurs ↔ type.Throughout (Makes anys heads occurs) := by
  refine iff_throughout _ (fun type => ⟨fun h => ?_, fun h => ?_⟩) type
  · cases h <;> simp_all [Makes, components, -Prod.forall, -Prod.exists]
  · obtain ⟨h, hparts⟩ := h
    cases type with
    | any => exact .any h
    | var name domain free => exact .var free h
    | bind => cases h
    | record fields complete =>
      cases (show complete = true from h)
      exact .record (forall_mem_map.mp hparts)
    | arrow parameter result =>
      exact .arrow (hparts parameter mem_cons_self) (hparts result (by simp [components]))
    | con head arguments => exact .con h hparts
    | tuple elements => exact .tuple hparts

namespace MadeOf

theorem isAnyFree (h : MadeOf False heads occurs type) : type.isAnyFree = true := by
  rw [madeOf_iff] at h
  exact (isAnyFree_iff _).mpr <| h.mono fun type h => by cases type <;> simp_all [Makes]

variable (h : MadeOf anys heads occurs type)
include h

theorem mono {heads' : TyCon → Nat → Prop}
    (hheads : ∀ {head count}, heads head count → heads' head count)
    (hoccurs : ∀ {name domain}, occurs name domain → occurs' name domain) :
    MadeOf anys heads' occurs' type := by
  rw [madeOf_iff] at h ⊢
  exact h.mono fun type h => by cases type <;> simp_all [Makes]

theorem simplify : MadeOf anys heads occurs type.simplify := by
  rw [madeOf_iff] at h ⊢
  exact h.simplify fun type h => by cases type <;> simp_all [Makes, untupled, mapComponents]

theorem isQuantifierFree : type.isQuantifierFree = true := by
  rw [madeOf_iff] at h
  exact (isQuantifierFree_iff _).mpr <| h.mono fun type h => by
    cases type <;> simp_all [Makes, isVar, isJoined]

theorem mapVariables {f : String → List Ty → Bool → Ty}
    (hf : ∀ {name domain} free, occurs name domain →
      MadeOf anys heads occurs' (f name domain free)) :
    MadeOf anys heads occurs' (type.mapVariables f) := by
  rw [madeOf_iff] at h ⊢
  refine h.mapVariables (fun _ _ _ free h => (madeOf_iff _).mp (hf free h)) fun type hvar h => ?_
  cases type <;> simp_all [Makes, isVar, mapComponents]

theorem mark (binder : Binder) :
    MadeOf anys heads occurs (binder.mark type) := by
  unfold Binder.mark
  split
  · rw [makeFree_eq_mapVariables h.isQuantifierFree]
    exact h.mapVariables fun _ hname => .var true hname
  · exact h

theorem isResolved : type.isResolved = true := by
  induction h with
  | any | var => rfl
  | record _ ih => simpa [Ty.isResolved, fold, Table.mapValues] using ih
  | arrow _ _ ihParameter ihResult =>
    simpa [Ty.isResolved, fold] using And.intro ihParameter ihResult
  | con _ _ ih => simpa [Ty.isResolved, fold] using ih
  | tuple _ ih => simpa [Ty.isResolved, fold] using ih

theorem occurs_of_mem {name : String}
    (hname : name ∈ type.term.vars) : ∃ domain, occurs name domain := by
  obtain ⟨domain, free, hoccurs⟩ := ((madeOf_iff _).mp h).of_mem_vars hname
  exact ⟨domain, hoccurs⟩

end MadeOf

end Ty

end Sml
