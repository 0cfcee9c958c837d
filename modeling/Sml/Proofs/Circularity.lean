import Sml.Proofs.Resolution

/-!
# Bindings that lead in a circle

Instantiation remembers the variables between a type and where it has got to.
A variable that is met again on the way from its own binding leads back to
itself.  One that is met on two ways does not, since it is forgotten when the
first of them comes to its end.
-/

namespace Sml

open List Ty

variable {env : TypeEnv} {store : Store} {type : Ty} {depth : Nat} {seen : List String}
  {fault : TypeFault}

namespace Ty

/-- No declared type in the type is an abbreviation, and each has as many
arguments as it takes. -/
def WellApplied (env : TypeEnv) : Ty → Prop :=
  Throughout (HeadIn fun head count => env.takes head count = true)

theorem wellApplied_iff (type : Ty) : type.WellApplied env ↔
    HeadIn (fun head count => env.takes head count = true) type ∧
      ∀ part ∈ type.components, part.WellApplied env :=
  ⟨fun ⟨hhead, hparts⟩ => ⟨hhead, hparts⟩, fun ⟨hhead, hparts⟩ => .intro hhead hparts⟩

theorem WellApplied.isFormed (h : type.WellApplied env) (hvar : type.isVar = false)
    (htuple : ∀ elements, type ≠ .tuple elements) : type.isFormed env = true := by
  cases type with
  | var => cases hvar
  | tuple elements => exact absurd rfl (htuple elements)
  | con => exact ((wellApplied_iff _).mp h).1
  | _ => rfl

theorem WellApplied.simplify (h : type.WellApplied env) : type.simplify.WellApplied env :=
  Throughout.simplify h fun type h => by
    cases type <;> simp_all [HeadIn, untupled, mapComponents]

theorem WellApplied.isUnfolded (h : type.WellApplied env) : type.isUnfolded env = true :=
  (isUnfolded_iff type).mpr <| h.mono fun type h => by
    cases type with
    | con head arguments =>
      simp only [HeadIn, TypeEnv.takes, Option.all_eq_true, Bool.and_eq_true] at h
      exact Option.all_eq_true _ _ |>.mpr fun info hinfo => (h info hinfo).1
    | _ => trivial

variable {α β ε : Type}

theorem bind_eq_error {action : Except ε α} {next : α → Except ε β} {fault : ε}
    (h : action >>= next = .error fault) :
    action = .error fault ∨ ∃ value, action = .ok value ∧ next value = .error fault := by
  cases action with
  | error other =>
    cases h
    exact .inl rfl
  | ok value => exact .inr ⟨value, rfl, h⟩

theorem exists_error_of_mapM {f : α → Except ε β} {items : List α} {fault : ε}
    (h : items.mapM f = .error fault) : ∃ item ∈ items, f item = .error fault := by
  induction items with
  | nil => cases h
  | cons item items ih =>
    rw [mapM_cons] at h
    rcases bind_eq_error h with hitem | ⟨_, _, hrest⟩
    · exact ⟨item, mem_cons_self, hitem⟩
    rcases bind_eq_error hrest with hitems | ⟨_, _, hlast⟩
    · obtain ⟨other, hother, herror⟩ := ih hitems
      exact ⟨other, mem_cons_of_mem _ hother, herror⟩
    · cases hlast

/-- A former fails as one of its components does. -/
theorem exists_error_of_instantiateTo_node (hform : type.isFormed env = true)
    (h : instantiateTo (depth + 1) env seen store type = .error fault) :
    ∃ part ∈ type.components, instantiateTo depth env seen store part = .error fault := by
  cases type with
  | any => cases h
  | var | tuple => cases hform
  | bind name domain free body =>
    rcases bind_eq_error h with hbody | ⟨_, _, hlast⟩
    · exact ⟨body, mem_cons_self, hbody⟩
    · cases hlast
  | record fields complete =>
    rcases bind_eq_error h with hfields | ⟨_, _, hlast⟩
    · obtain ⟨field, hfield, herror⟩ := exists_error_of_mapM hfields
      rcases bind_eq_error herror with herror | ⟨_, _, hlast⟩
      · exact ⟨field.2, mem_map_of_mem hfield, herror⟩
      · cases hlast
    · cases hlast
  | arrow parameter result =>
    rcases bind_eq_error h with hparameter | ⟨_, _, hrest⟩
    · exact ⟨parameter, mem_cons_self, hparameter⟩
    rcases bind_eq_error hrest with hresult | ⟨_, _, hlast⟩
    · exact ⟨result, by simp [components], hresult⟩
    · cases hlast
  | con head arguments =>
    cases hmap : arguments.mapM (instantiateTo depth env seen store) with
    | ok results =>
      rw [instantiateTo_con_eq hform hmap] at h
      cases h
    | error other =>
      rw [instantiateTo, hmap] at h
      cases h
      exact exists_error_of_mapM hmap

end Ty

namespace Store

/-- Following bindings from a variable of the type can come to a variable that
leads back to itself. -/
def LeadsAround (store : Store) (type : Ty) : Prop :=
  ∃ name, store.Leads type name ∧ Relation.TransGen store.Depends name name

theorem Resolves.not_leadsAround {result : Ty} (h : store.Resolves env type result) :
    ¬ store.LeadsAround type :=
  fun ⟨_, hleads, hcycle⟩ => h.not_around hleads hcycle

variable (hbindings : ∀ {name binding}, store.get? name = some binding →
  binding.type.WellApplied env)
include hbindings

/-- The variables that instantiation has come by lead to those that are left,
so what it calls circular is so. -/
theorem instantiateTo_outcome (htype : type.WellApplied env)
    (hseen : ∀ name ∈ seen, ∀ inner ∈ type.term.vars, Relation.TransGen store.Depends name inner)
    (hdepth : 2 * type.size + type.detour + store.room seen ≤ depth) :
    (∃ result, instantiateTo depth env seen store type = .ok result) ∨
      ∃ name bound, instantiateTo depth env seen store type = .error (.circular name bound) ∧
        store.LeadsAround type := by
  induction depth generalizing seen type with
  | zero =>
    have hsize := type.size_eq
    omega
  | succ depth ih =>
    by_cases htuple : ∃ elements, type = .tuple elements
    · obtain ⟨elements, rfl⟩ := htuple
      have hsize : (Ty.tuple elements).simplify.size = (Ty.tuple elements).size := by
        rw [← parts_term, term_simplify, parts_term]
      have haround : store.LeadsAround (Ty.tuple elements).simplify ↔
          store.LeadsAround (.tuple elements) := by
        simp only [LeadsAround, leads_simplify_iff]
      rw [instantiateTo, ← haround]
      refine ih htype.simplify (by rwa [term_simplify]) ?_
      rw [hsize, simplify_tuple]
      simp only [detour] at hdepth ⊢
      omega
    cases hvar : type.isVar with
    | true =>
      obtain ⟨name, domain, free, rfl⟩ := exists_of_isVar hvar
      rw [instantiateTo]
      cases hbinding : store.get? name with
      | none =>
        left
        cases store.domain? name with
        | none | some => exact ⟨_, rfl⟩
      | some binding =>
        by_cases hmem : name ∈ seen
        · have hcycle := hseen name hmem name (by simp)
          simp only [contains_iff_mem, hmem, if_true]
          exact .inr ⟨name, _, rfl, name, .of_mem (by simp), hcycle⟩
        · have hroom := room_follow hbinding hmem
          have hdetour := binding.type.detour_le_one
          have hsize := (Ty.var name domain free).size_eq
          simp only [contains_iff_mem, hmem, if_false]
          refine (ih (hbindings hbinding) ?_ (by omega)).imp_right ?_
          · intro other hother inner hinner
            have hstep : store.Depends name inner := ⟨binding, hbinding, hinner⟩
            rcases mem_cons.mp hother with rfl | hother
            · exact .single hstep
            · exact (hseen other hother name (by simp)).tail hstep
          · rintro ⟨found, bound, herror, last, hleads, hcycle⟩
            exact ⟨found, bound, herror, last, hleads.through hbinding, hcycle⟩
    | false =>
      have hform := htype.isFormed hvar (not_exists.mp htuple)
      cases hresult : instantiateTo (depth + 1) env seen store type with
      | ok result => exact .inl ⟨result, rfl⟩
      | error fault =>
        obtain ⟨part, hpart, herror⟩ := exists_error_of_instantiateTo_node hform hresult
        have hsize := size_lt_of_mem hpart
        have hdetour := part.detour_le_one
        have hparts : ∀ name ∈ seen, ∀ inner ∈ part.term.vars,
            Relation.TransGen store.Depends name inner := fun name hname inner hinner =>
          hseen name hname inner ((Ty.mem_vars_iff hvar inner).mpr ⟨part, hpart, hinner⟩)
        rcases ih (((wellApplied_iff type).mp htype).2 part hpart) hparts (by omega) with
          ⟨_, hok⟩ | ⟨name, bound, hcircular, last, hleads, hcycle⟩
        · rw [herror] at hok
          cases hok
        · rw [herror] at hcircular
          cases hcircular
          exact .inr ⟨name, bound, rfl, last, (leads_iff hvar).mpr ⟨part, hpart, hleads⟩, hcycle⟩

end Store

/-- Instantiation comes to an end.  It finds a circle exactly if following
bindings from a variable of the type can come to one; otherwise it leaves no
bound variable, and nothing to do for a second time. -/
theorem Ty.instantiate_resolves_or_circular (env : TypeEnv) (store : Store) (type : Ty)
    (hdomains : store.domains = []) (htype : type.WellApplied env)
    (hbindings : ∀ name binding, store.get? name = some binding → binding.type.WellApplied env) :
    ((∃ name bound, type.instantiate env store = .error (.circular name bound)) ↔
      store.LeadsAround type) ∧
    (¬ store.LeadsAround type → ∃ result, type.instantiate env store = .ok result ∧
      (∀ name ∈ result.term.vars, store.get? name = none) ∧
      result.instantiate env store = .ok result) := by
  have hroom := store.room_nil
  have hdetour := type.detour_le_one
  have hsettled : store.Settled env type :=
    ⟨htype.isUnfolded, fun _ hbinding => (hbindings _ _ hbinding).isUnfolded⟩
  have houtcome : (∃ result, type.instantiate env store = .ok result) ∨ ∃ name bound,
      type.instantiate env store = .error (.circular name bound) ∧ store.LeadsAround type := by
    refine Store.instantiateTo_outcome (hbindings _ _) htype (by simp) ?_
    rw [unfoldingRoom]
    omega
  rcases houtcome with ⟨result, hresult⟩ | ⟨name, bound, hcircular, haround⟩
  · have hresolves := (Store.resolves_iff hsettled result).mpr hresult
    have hunbound : ∀ name ∈ result.term.vars, store.get? name = none :=
      fun _ => hresolves.unbound_of_mem
    refine ⟨⟨?_, fun haround => absurd haround hresolves.not_leadsAround⟩,
      fun _ => ⟨result, hresult, hunbound, ?_⟩⟩
    · rintro ⟨name, bound, hcircular⟩
      rw [hresult] at hcircular
      cases hcircular
    · refine (hresolves.itself hunbound fun name _ => ?_).instantiate_eq
      rw [Store.domain?, hdomains]
      rfl
  · exact ⟨⟨fun _ => haround, fun _ => ⟨name, bound, hcircular⟩⟩, fun hnot => absurd haround hnot⟩

def ringEnv : TypeEnv where
  type? _ name := if name = "list" then
    some { type := .list (.plain "'a"), arity := 1, equality := true } else none
  value? _ _ := none
  assumed? _ _ := none

def ringStore : Store where
  bindings := [("'a", ⟨.list (.plain "'b"), false⟩),
    ("'b", ⟨.tuple [.plain "'c", .plain "'a"], false⟩)]

theorem Ty.instantiate_ring :
    ringStore.LeadsAround (.arrow (.plain "'c") (.plain "'b")) ∧
      ∃ name bound, (Ty.arrow (.plain "'c") (.plain "'b")).instantiate ringEnv ringStore =
        .error (.circular name bound) := by
  have hplain : ∀ name, (Ty.plain name).WellApplied ringEnv := fun _ => .intro trivial nofun
  have hbindings : ∀ name binding, ringStore.get? name = some binding →
      binding.type.WellApplied ringEnv := by
    intro name binding hbinding
    have hmem := Table.mem_of_get? hbinding
    simp only [ringStore, mem_cons, not_mem_nil, or_false] at hmem
    rcases hmem with ⟨_, rfl⟩ | ⟨_, rfl⟩
    · exact (wellApplied_iff _).mpr ⟨rfl, forall_mem_singleton.mpr (hplain _)⟩
    · exact (wellApplied_iff _).mpr ⟨trivial, by simp [components, hplain]⟩
  have htype : (Ty.arrow (.plain "'c") (.plain "'b")).WellApplied ringEnv :=
    (wellApplied_iff _).mpr ⟨trivial, by simp [components, hplain]⟩
  have haround : ringStore.LeadsAround (.arrow (.plain "'c") (.plain "'b")) := by
    have hfirst : ringStore.Depends "'b" "'a" := ⟨_, rfl, by decide⟩
    have hsecond : ringStore.Depends "'a" "'b" := ⟨_, rfl, by decide⟩
    exact ⟨"'b", .of_mem (by decide), .tail (.single hfirst) hsecond⟩
  exact ⟨haround, (instantiate_resolves_or_circular ringEnv ringStore _ rfl htype
    hbindings).1.mpr haround⟩

end Sml
