import Mathlib.Data.Finset.Card
import Mathlib.Logic.Relation
import Sml.Proofs.Plain

/-!
# What a store says

A store without cycles is a system of equations, one for each bound variable,
and the system has a most general solution: put for each variable what it is
bound to, again and again.  The substitutions that satisfy the store are the
instances of that solution.

That it takes finitely many steps is told by a rank, a number for each
variable that falls from a bound variable to those its type mentions.
-/

namespace Sml.Store

open List Table Term

variable {store : Store} {name : String} {binding : Binding} {inner : Term}

/-- All bound types are plain, and no domains are recorded. -/
structure IsPlain (env : TypeEnv) (store : Store) : Prop where
  bindings : ∀ name binding, store.get? name = some binding → binding.type.isPlain env = true
  domains : store.domains = []

def Depends (store : Store) (name other : String) : Prop :=
  ∃ binding, store.get? name = some binding ∧ other ∈ binding.type.term.vars

/-- Following bindings never leads back to where it began. -/
def Acyclic (store : Store) : Prop := ∀ name, ¬ Relation.TransGen store.Depends name name

/-! ## Ranks -/

def Ranked (store : Store) (rank : String → Nat) : Prop :=
  ∀ name other, store.Depends name other → rank other < rank name

theorem Ranked.acyclic {rank : String → Nat} (h : store.Ranked rank) : store.Acyclic := by
  have hfalls : ∀ name other, Relation.TransGen store.Depends name other →
      rank other < rank name := by
    intro name other hpath
    induction hpath with
    | single hstep => exact h _ _ hstep
    | tail _ hstep ih => exact (h _ _ hstep).trans ih
  intro name hcycle
  exact (hfalls name name hcycle).ne rfl

theorem Ranked.of_bindings (rank : String → Nat) (h : ∀ entry ∈ store.bindings,
    ∀ other ∈ entry.2.type.term.vars, rank other < rank entry.1) : store.Ranked rank := by
  rintro name other ⟨binding, hbinding, hother⟩
  exact h _ (mem_of_get? hbinding) other hother

def boundNames (store : Store) : Finset String := (keys store.bindings).toFinset

theorem mem_boundNames : name ∈ store.boundNames ↔ store.isBound name = true := by
  rw [boundNames, mem_toFinset, ← contains_iff]
  rfl

theorem card_boundNames_le (store : Store) : store.boundNames.card ≤ store.size := by
  have hle := toFinset_card_le (keys store.bindings)
  rwa [Table.keys, length_map] at hle

open Classical in
private noncomputable def reached (store : Store) (name : String) : Finset String :=
  store.boundNames.filter (Relation.ReflTransGen store.Depends name)

variable {other : String}

private theorem mem_reached :
    other ∈ store.reached name ↔
      store.isBound other = true ∧ Relation.ReflTransGen store.Depends name other := by
  classical
  rw [reached, Finset.mem_filter, mem_boundNames]

private theorem reached_ssubset (hacyclic : store.Acyclic) (h : store.Depends name other) :
    store.reached other ⊂ store.reached name := by
  obtain ⟨binding, hbinding, _⟩ := id h
  rw [Finset.ssubset_iff_of_subset]
  · refine ⟨name, mem_reached.mpr ⟨?_, .refl⟩, ?_⟩
    · rw [isBound, hbinding, Option.isSome_some]
    · intro hmem
      exact hacyclic name (.head' h (mem_reached.mp hmem).2)
  · intro inner hinner
    obtain ⟨hbound, hpath⟩ := mem_reached.mp hinner
    exact mem_reached.mpr ⟨hbound, .head h hpath⟩

/-- Without cycles there is a rank, and no rank is more than the number of
bound variables. -/
theorem Acyclic.exists_ranked (h : store.Acyclic) :
    ∃ rank, store.Ranked rank ∧
      ∀ name, rank name ≤ store.boundNames.card := by
  classical
  refine ⟨fun name => (store.reached name).card, ?_, ?_⟩
  · intro name other hdepends
    exact Finset.card_lt_card (reached_ssubset h hdepends)
  · exact fun name => Finset.card_filter_le _ _

/-! ## Solutions -/

/-- A substitution that leaves unbound variables alone and makes every bound
variable equal to its type. -/
structure Solves (σ : Subst) (store : Store) : Prop where
  bound : ∀ name binding, store.get? name = some binding → σ name = binding.type.term.subst σ
  unbound : ∀ name, store.get? name = none → σ name = .var name

/-- What a variable is bound to, with bindings followed so many times. -/
private def unfolded (store : Store) : Nat → Subst
  | 0, name => .var name
  | count + 1, name =>
    match store.get? name with
    | none => .var name
    | some binding => binding.type.term.subst (unfolded store count)

section Solution

variable {env : TypeEnv} {store : Store} {rank : String → Nat}

private theorem unfolded_succ (hranked : store.Ranked rank) (name : String) (count : Nat)
    (h : rank name < count) : store.unfolded (count + 1) name = store.unfolded count name := by
  induction count generalizing name with
  | zero => omega
  | succ count ih =>
    rw [unfolded, unfolded]
    cases hbinding : store.get? name with
    | none => rfl
    | some binding =>
      apply subst_congr
      intro other hother
      have hfalls := hranked _ _ ⟨binding, hbinding, hother⟩
      exact ih other (by omega)

theorem Acyclic.exists_solves (h : store.Acyclic) : ∃ σ, Solves σ store := by
  obtain ⟨rank, hranked, hle⟩ := h.exists_ranked
  refine ⟨store.unfolded (store.boundNames.card + 1), ?_, ?_⟩
  · intro name binding hbinding
    rw [unfolded, hbinding]
    apply subst_congr
    intro other hother
    have hfalls := hranked _ _ ⟨binding, hbinding, hother⟩
    have hname := hle name
    exact (unfolded_succ hranked other _ (by omega)).symm
  · intro name hname
    rw [unfolded, hname]

variable {σ : Subst}

section Acyclic

variable (hσ : Solves σ store) (hacyclic : store.Acyclic)
include hσ hacyclic

theorem Solves.induct {motive : String → Prop}
    (unbound : ∀ name, store.get? name = none → σ name = .var name → motive name)
    (bound : ∀ name binding, store.get? name = some binding → σ name = binding.type.term.subst σ →
      (∀ other ∈ binding.type.term.vars, motive other) → motive name)
    (name : String) : motive name := by
  obtain ⟨rank, hranked, _⟩ := hacyclic.exists_ranked
  induction hrank : rank name using Nat.strongRecOn generalizing name with
  | ind value ih =>
    cases hbinding : store.get? name with
    | none => exact unbound name hbinding (hσ.unbound name hbinding)
    | some binding =>
      apply bound name binding hbinding (hσ.bound name binding hbinding)
      intro other hother
      have hfalls := hranked _ _ ⟨binding, hbinding, hother⟩
      exact ih (rank other) (by omega) other rfl

theorem Solves.absorbs_iff (θ : Subst) :
    θ.Absorbs σ ↔ ∀ name binding, store.get? name = some binding →
      θ name = binding.type.term.subst θ := by
  constructor
  · intro h name binding hbinding
    rw [← h name, hσ.bound name binding hbinding, h.subst]
  · intro h name
    induction name using hσ.induct hacyclic with
    | unbound name hunbound hname => rw [hname, subst_var]
    | bound name binding hbinding hname ih =>
      rw [hname, subst_subst, subst_congr ih, h name binding hbinding]

theorem Solves.absorbs_self : σ.Absorbs σ :=
  (hσ.absorbs_iff hacyclic σ).mpr hσ.bound

theorem Solves.unbound_of_mem_vars (h : other ∈ (σ name).vars) : store.get? other = none := by
  induction name using hσ.induct hacyclic with
  | unbound name hunbound hname =>
    rw [hname, vars_var, mem_singleton] at h
    rwa [h]
  | bound name binding hbinding hname ih =>
    rw [hname, mem_vars_subst] at h
    obtain ⟨inner, hinner, hother⟩ := h
    exact ih inner hinner hother

end Acyclic

/-! ## Binding one more variable -/

theorem get?_bind (store : Store) (name : String) (type : Ty) (free : Bool) (other : String) :
    (store.bind name type free).get? other =
      if name = other then some ⟨type, free⟩ else store.get? other :=
  get?_insert _ _ _ _

theorem IsPlain.bind (hplain : store.IsPlain env) {type : Ty} (htype : type.isPlain env = true)
    (name : String) (free : Bool) : (store.bind name type free).IsPlain env where
  bindings := by
    intro other binding hbinding
    rw [get?_bind] at hbinding
    split at hbinding
    · cases hbinding
      exact htype
    · exact hplain.bindings other binding hbinding
  domains := hplain.domains

section Bind

variable {name : String} {type : Ty}

theorem Solves.bind (hσ : Solves σ store) (hunbound : store.get? name = none)
    (hoccurs : name ∉ (type.term.subst σ).vars) (free : Bool) :
    Solves (σ.extend name (type.term.subst σ)) (store.bind name type free) where
  bound := by
    intro other binding hbinding
    rw [get?_bind] at hbinding
    rw [Subst.subst_extend]
    split at hbinding
    · rename_i heq
      cases hbinding
      rw [Subst.subst_single_of_not_mem hoccurs, ← heq, Subst.extend,
        hσ.unbound name hunbound, subst_var, Subst.single_self]
    · rw [← hσ.bound other binding hbinding, Subst.extend]
  unbound := by
    intro other hother
    rw [get?_bind] at hother
    split at hother
    · simp at hother
    · rename_i hne
      rw [Subst.extend, hσ.unbound other hother, subst_var, Subst.single, if_neg (Ne.symm hne)]

/-- A variable may be bound to a type that does not lead back to it.  The
variables that lead to it are lifted above all others. -/
theorem Solves.acyclic_bind (hσ : Solves σ store) (hacyclic : store.Acyclic)
    (hunbound : store.get? name = none) (hoccurs : name ∉ (type.term.subst σ).vars) (free : Bool) :
    (store.bind name type free).Acyclic := by
  obtain ⟨rank, hranked, hle⟩ := hacyclic.exists_ranked
  let lift (other : String) : Nat := if name ∈ (σ other).vars then store.boundNames.card + 1 else 0
  suffices hlifted : (store.bind name type free).Ranked
      fun other => rank other + lift other from hlifted.acyclic
  rintro outer inner ⟨binding, hbinding, hinner⟩
  rw [get?_bind] at hbinding
  split at hbinding
  · rename_i heq
    cases hbinding
    have hself : lift outer = store.boundNames.card + 1 := by
      apply if_pos
      rw [← heq, hσ.unbound name hunbound]
      simp
    have hinnerLift : lift inner = 0 := by
      apply if_neg
      intro hmem
      exact hoccurs ((mem_vars_subst _ _ _).mpr ⟨inner, hinner, hmem⟩)
    have hinnerRank := hle inner
    simp only
    omega
  · have hfalls := hranked _ _ ⟨binding, hbinding, hinner⟩
    have hmono : lift inner ≤ lift outer := by
      simp only [lift]
      split
      · rename_i hmem
        rw [if_pos]
        rw [hσ.bound outer binding hbinding, mem_vars_subst]
        exact ⟨inner, hinner, hmem⟩
      · omega
    simp only
    omega

end Bind

/-! ## The height of a solution -/

def nodes (store : Store) : List Term := store.bindings.flatMap fun entry => entry.2.type.term.nodes

def vars (store : Store) : List String := store.bindings.flatMap fun entry => entry.2.type.term.vars

theorem length_nodes_add_length_vars (store : Store) :
    store.nodes.length + store.vars.length = store.weight := by
  obtain ⟨bindings, domains⟩ := store
  rw [nodes, vars, weight]
  induction bindings with
  | nil => rfl
  | cons entry bindings ih =>
    have hparts := Ty.parts_term entry.2.type
    rw [parts] at hparts
    simp only [flatMap_cons, length_append, foldr_cons]
    simp only at ih
    omega

theorem mem_nodes (hbinding : store.get? name = some binding)
    (h : inner ∈ binding.type.term.nodes) : inner ∈ store.nodes :=
  mem_flatMap.mpr ⟨_, mem_of_get? hbinding, h⟩

theorem mem_vars (hbinding : store.get? name = some binding) (h : other ∈ binding.type.term.vars) :
    other ∈ store.vars :=
  mem_flatMap.mpr ⟨_, mem_of_get? hbinding, h⟩

variable (hσ : Solves σ store) (hacyclic : store.Acyclic)
include hσ hacyclic

theorem Solves.mem_nodes
    (h : inner ∈ (σ name).nodes) : ∃ original ∈ store.nodes, inner = original.subst σ := by
  induction name using hσ.induct hacyclic with
  | unbound name hunbound hname => simp [hname] at h
  | bound name binding hbinding hname ih =>
    rw [hname] at h
    rcases mem_nodes_subst h with
      ⟨original, horiginal, heq⟩ | ⟨other, hother, hinner⟩
    · exact ⟨original, Store.mem_nodes hbinding horiginal, heq⟩
    · exact ih other hother hinner

theorem Solves.mem_vars (h : other ∈ (σ name).vars) : other = name ∨ other ∈ store.vars := by
  induction name using hσ.induct hacyclic with
  | unbound name hunbound hname =>
    rw [hname, vars_var, mem_singleton] at h
    exact .inl h
  | bound name binding hbinding hname ih =>
    rw [hname, mem_vars_subst] at h
    obtain ⟨inner, hinner, hother⟩ := h
    have hinnerMem := Store.mem_vars hbinding hinner
    rcases ih inner hinner hother with rfl | hmem
    · exact .inr hinnerMem
    · exact .inr hmem

theorem Solves.height_le (term : Term) :
    (term.subst σ).height ≤ term.nodes.length + store.nodes.length := by
  have hpool : ∀ inner ∈ (term.subst σ).nodes,
      inner ∈ (term.nodes ++ store.nodes).map (subst σ) := by
    intro inner hinner
    rw [mem_map]
    rcases mem_nodes_subst hinner with
      ⟨original, horiginal, rfl⟩ | ⟨name, hname, hinner⟩
    · exact ⟨original, mem_append_left _ horiginal, rfl⟩
    · obtain ⟨original, horiginal, rfl⟩ := hσ.mem_nodes hacyclic hinner
      exact ⟨original, mem_append_right _ horiginal, rfl⟩
  have hheight := height_le_length hpool
  rwa [length_map, length_append] at hheight

end Solution

end Sml.Store
