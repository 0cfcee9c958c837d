import Sml.Proofs.MergeWalk

/-!
# What merging leaves alone

Merging binds and constrains variables and does nothing else to a store: what
is bound stays bound.

A store that elaboration works on is changed by merging, by a record of which
only some fields are known, and by forgetting what is not free.
-/

namespace Sml

open Table

namespace Store

/-- What is bound stays bound, and the bindings stay in order. -/
structure Extends (store after : Store) : Prop where
  unbound : ∀ {name}, after.get? name = none → store.get? name = none
  ordered : Ordered store.bindings → Ordered after.bindings

namespace Extends

variable {store middle after : Store}

theorem refl (store : Store) : store.Extends store := ⟨id, id⟩

theorem trans (hfirst : store.Extends middle)
    (hsecond : middle.Extends after) : store.Extends after :=
  ⟨fun hname => hfirst.unbound (hsecond.unbound hname),
    fun hstore => hsecond.ordered (hfirst.ordered hstore)⟩

theorem bind (h : store.Extends middle) (name : String) (type : Ty)
    (free : Bool) : store.Extends (middle.bind name type free) where
  unbound := by
    intro other hother
    rw [get?_bind] at hother
    split at hother
    · cases hother
    · exact h.unbound hother
  ordered := fun hstore => ordered_insert (h.ordered hstore) _ _

theorem constrain (h : store.Extends middle) (name : String)
    (domain : List Ty) : store.Extends (middle.constrain name domain) :=
  ⟨h.unbound, h.ordered⟩

end Extends

end Store

namespace Ty

variable {env : TypeEnv}

theorem extends_mergeVariables (store : Store) (this that : Binder) :
    Yields (fun result => store.Extends result.2) (mergeVariables store this that) := by
  rintro ⟨merged, after⟩ h
  obtain ⟨_, ⟨_, _, rfl⟩ | ⟨survivor, victim, _, _, _, rfl⟩⟩ := mergeVariables_eq_ok h
  · exact .refl _
  · rw [Store.join]
    split
    · exact .bind (.refl store) _ _ _
    · exact .constrain (.constrain (.bind (.refl store) _ _ _) _ _) _ _

/-- All stores and types, which are shown without what is bound. -/
def extendsKind : MergeKind where
  store _ := True
  type _ _ := True
  shown store type := ∀ name ∈ type.term.vars, store.get? name = none
  made _ _ := True
  grows := Store.Extends

theorem extendsKind_respects (env : TypeEnv) : extendsKind.Respects env env where
  refl _ := .refl _
  trans := .trans
  sound _ := trivial
  later _ _ := trivial
  lasts _ _ := trivial
  given _ _ := trivial
  kept _ := trivial
  body _ := trivial
  simplify _ := trivial
  fields _ _ _ := trivial
  arrow _ := ⟨trivial, trivial⟩
  arguments _ _ _ := trivial
  makeRecord _ _ _ := trivial
  makeArrow _ _ := trivial
  makeCon _ _ _ _ := trivial
  join _ _ _ := fun result hresult => ⟨trivial, extends_mergeVariables _ _ _ result hresult⟩
  rebind _ _ _ hmerged free := ⟨trivial, hmerged.grown.bind _ _ free⟩
  definition _ := rfl
  abbreviation _ _ _ := ⟨fun _ _ => trivial, trivial⟩
  typed _ := trivial
  bound _ _ := trivial
  earlier hgrows hshown name hname := hgrows.unbound (hshown name hname)
  showAny := by simp [extendsKind]
  showVar _ _ hname := by simpa [extendsKind] using hname
  showBind _ hbody := by simpa [extendsKind] using hbody
  showRecord _ hothers := by
    intro name hname
    obtain ⟨field, hfield, hname⟩ := (mem_vars_record _ _ _).mp hname
    exact hothers field hfield name hname
  showArrow hparameter hresult := by
    intro name hname
    rw [term_arrow, Term.mem_vars_node] at hname
    simp only [List.mem_cons, List.not_mem_nil, or_false, exists_eq_or_imp, exists_eq_left] at hname
    exact hname.elim (hparameter name) (hresult name)
  showCon _ _ hothers _ _ := by
    intro name hname
    obtain ⟨argument, hargument, hname⟩ := (mem_vars_con _ _ _).mp hname
    exact hothers argument hargument name hname
  makeBind _ _ := trivial
  convert _ _ _ := ⟨trivial, .bind (.refl _) _ _ _⟩
  replace _ hmerged free := ⟨trivial, hmerged.grown.bind _ _ free⟩

theorem extendsKind_kept (env : TypeEnv) (depth : Nat) : extendsKind.Kept env env depth :=
  ((extendsKind_respects env).keeps (fun _ _ _ => trivial) depth).1

/-- The variables of an instance are not bound, not even those that unfolding
an abbreviation has left in it. -/
theorem unbound_of_instantiateTo (depth : Nat) (seen : List String) (store : Store) (type : Ty) :
    Yields (fun result => ∀ name ∈ result.term.vars, store.get? name = none)
      (instantiateTo depth env seen store type) :=
  ((extendsKind_kept env depth).instantiate seen trivial trivial).yields

end Ty

/-! ## What elaboration learns -/

inductive Store.Learns (store : Store) : Store → Prop
  | refl : Learns store store
  | merge {middle after : Store} {env : TypeEnv} {left right merged : Ty} :
      Learns store middle →
      Ty.merge env middle left right = .ok (merged, after) →
      Learns store after
  | row {middle : Store} (name : String) (fields : Table Ty) :
      Learns store middle →
      Learns store (middle.bind name (.record fields false) false)
  | forget {middle : Store} : Learns store middle →
      Learns store middle.freeOnly

namespace Store

variable {store middle after : Store}

theorem Learns.trans (hfirst : store.Learns middle)
    (hsecond : middle.Learns after) : store.Learns after := by
  induction hsecond with
  | refl => exact hfirst
  | merge _ hmerge ih => exact .merge ih hmerge
  | row name fields _ ih => exact .row name fields ih
  | forget _ ih => exact .forget ih

theorem ordered_freeOnly (h : Ordered store.bindings) : Ordered store.freeOnly.bindings :=
  List.Pairwise.sublist (List.Sublist.map _ List.filter_sublist) h

theorem Learns.ordered (h : store.Learns after) (hstore : Ordered store.bindings) :
    Ordered after.bindings := by
  induction h with
  | refl => exact hstore
  | merge _ hmerge ih =>
    have hkept := (Ty.extendsKind_kept _ _).merge trivial trivial trivial _ hmerge
    exact hkept.2.grown.ordered ih
  | row name fields _ ih => exact ordered_insert ih _ _
  | forget _ ih => exact ordered_freeOnly ih

theorem get?_freeOnly (h : Ordered store.bindings) (name : String) :
    store.freeOnly.get? name = (store.get? name).filter Binding.free :=
  get?_filterValues h _ name

end Store

end Sml
