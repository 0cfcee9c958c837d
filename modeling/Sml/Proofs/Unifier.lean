import Sml.Proofs.Instances
import Sml.Proofs.Merged

/-!
# The invariant of merging

While two types are merged, bindings are only added.  All types that are met
on the way are instances of subterms of the types at the start, so none is
higher than there are such subterms.  That bounds how deep merging can go,
although a binding may make a type higher.

`Stock` names these subterms and the variables in them, `Stock.Holds` says
what is true of the store between any two steps, and `Outcome` says what a
step achieves: a most general solution of some equations, or none exists.
-/

namespace Sml

open List Store Term

structure Stock where
  terms : List Term
  names : List String

variable {term : Term}
variable {former : Former} {children : List Term} {name : String}

namespace Stock

/-- Under `σ` the term is made of instances of the stock. -/
structure Within (stock : Stock) (σ : Subst) (term : Term) : Prop where
  nodes : ∀ inner ∈ (term.subst σ).nodes, ∃ original ∈ stock.terms, inner = original.subst σ
  vars : ∀ name ∈ (term.subst σ).vars, name ∈ stock.names

structure Holds (stock : Stock) (env : TypeEnv) (store : Store) (σ : Subst) : Prop where
  plain : store.IsPlain env
  acyclic : store.Acyclic
  solves : store.Solves σ
  bound : ∀ name, store.isBound name = true → name ∈ stock.names
  within : ∀ name ∈ stock.names, stock.Within σ (.var name)

variable {stock : Stock} {env : TypeEnv} {store store' : Store} {σ σ' : Subst}

theorem Holds.absorbs_self (h : stock.Holds env store σ) : σ.Absorbs σ :=
  h.solves.absorbs_self h.acyclic

theorem Holds.card_boundNames_le (h : stock.Holds env store σ) :
    store.boundNames.card ≤ stock.names.length := by
  have hsubset : store.boundNames ⊆ stock.names.toFinset := by
    intro name hname
    exact mem_toFinset.mpr (h.bound name (mem_boundNames.mp hname))
  exact (Finset.card_le_card hsubset).trans (toFinset_card_le _)

/-! ## Height -/

theorem Within.height_le (h : stock.Within σ term) :
    (term.subst σ).height ≤ stock.terms.length := by
  have hpool : ∀ inner ∈ (term.subst σ).nodes, inner ∈ stock.terms.map (subst σ) := by
    intro inner hinner
    obtain ⟨original, horiginal, rfl⟩ := h.nodes inner hinner
    exact mem_map.mpr ⟨original, horiginal, rfl⟩
  have hheight := height_le_length hpool
  rwa [length_map] at hheight

theorem Within.later (h : stock.Within σ term) (hσ' : stock.Holds env store' σ')
    (habsorbs : σ'.Absorbs σ) : stock.Within σ' term where
  nodes := by
    intro inner hinner
    rw [← habsorbs.subst] at hinner
    rcases mem_nodes_subst hinner with
      ⟨earlier, hearlier, rfl⟩ | ⟨name, hname, hinner⟩
    · obtain ⟨original, horiginal, rfl⟩ := h.nodes earlier hearlier
      exact ⟨original, horiginal, habsorbs.subst original⟩
    · exact (hσ'.within name (h.vars name hname)).nodes inner hinner
  vars := by
    intro name hname
    rw [← habsorbs.subst, mem_vars_subst] at hname
    obtain ⟨other, hother, hname⟩ := hname
    exact (hσ'.within other (h.vars other hother)).vars name hname

/-- However the store grows, the term will not be higher. -/
def AtMost (stock : Stock) (env : TypeEnv) (σ : Subst) (bound : Nat) (term : Term) : Prop :=
  ∀ store' σ', stock.Holds env store' σ' → σ'.Absorbs σ → (term.subst σ').height ≤ bound

theorem Within.atMost (h : stock.Within σ term) : stock.AtMost env σ stock.terms.length term :=
  fun _ _ hσ' habsorbs => (h.later hσ' habsorbs).height_le

structure Fits (stock : Stock) (env : TypeEnv) (σ : Subst) (bound : Nat) (type : Ty) : Prop where
  plain : type.isPlain env = true
  within : stock.Within σ type.term
  atMost : stock.AtMost env σ bound type.term

variable {bound : Nat} {type : Ty}

theorem Fits.part (h : stock.Fits env σ (bound + 1) type) (hvar : type.isVar = false) {part : Ty}
    (hpart : part ∈ type.components) : stock.Fits env σ bound part := by
  obtain ⟨former, hterm⟩ := Ty.exists_term_eq_node hvar
  have hmem : ∀ σ : Subst, part.term.subst σ ∈
      (type.untupled.components.map Ty.term).map (subst σ) := fun σ =>
    mem_map_of_mem (mem_map_of_mem (type.components_untupled_perm.mem_iff.mpr hpart))
  refine ⟨((Ty.isIn_iff_fits _).mp h.plain).2 part hpart, ⟨?_, ?_⟩, ?_⟩
  · intro inner hinner
    apply h.within.nodes
    rw [hterm, subst_node, mem_nodes_node]
    exact .inr ⟨_, hmem σ, hinner⟩
  · intro name hname
    apply h.within.vars
    rw [hterm, subst_node, mem_vars_node]
    exact ⟨_, hmem σ, hname⟩
  · intro store' σ' hσ' habsorbs
    have hle := h.atMost store' σ' hσ' habsorbs
    rw [hterm, subst_node, height_node_le_iff] at hle
    exact hle _ (hmem σ')

section

variable (h : stock.Fits env σ bound type)
include h

theorem Fits.later (hσ' : stock.Holds env store' σ') (habsorbs : σ'.Absorbs σ) :
    stock.Fits env σ' bound type where
  plain := h.plain
  within := h.within.later hσ' habsorbs
  atMost := fun store'' σ'' hσ'' habsorbs' =>
    h.atMost store'' σ'' hσ'' (habsorbs'.trans habsorbs)

theorem Fits.of_term_eq {other : Ty} (hplain : other.isPlain env = true)
    (hterm : other.term = type.term) : stock.Fits env σ bound other :=
  ⟨hplain, hterm ▸ h.within, hterm ▸ h.atMost⟩

theorem Fits.isInstance {instantiated : Ty} (hσ : σ.Absorbs σ)
    (hinstance : Ty.IsInstance (.plain env) σ type instantiated) :
    stock.Fits env σ bound instantiated where
  plain := hinstance.isIn
  within := by
    have hterm : instantiated.term.subst σ = type.term.subst σ := by rw [hinstance.term, hσ.subst]
    exact ⟨hterm ▸ h.within.nodes, hterm ▸ h.within.vars⟩
  atMost := by
    intro store' σ' hσ' habsorbs
    rw [hinstance.term, habsorbs.subst]
    exact h.atMost store' σ' hσ' habsorbs

theorem Fits.exists_bound (hσ : stock.Holds env store σ) (hvar : type.isVar = false) :
    ∃ less, bound = less + 1 := by
  obtain ⟨former, hterm⟩ := Ty.exists_term_eq_node hvar
  have hle := h.atMost store σ hσ hσ.absorbs_self
  rw [hterm, subst_node, height] at hle
  exact ⟨bound - 1, by omega⟩

end

/-- The depth that instantiation needs while the invariant holds. -/
def room (stock : Stock) : Nat := 2 * stock.terms.length + stock.names.length + 2

theorem Holds.instantiateTo (hσ : stock.Holds env store σ) (h : stock.Fits env σ bound type)
    {depth : Nat} (hdepth : stock.room ≤ depth) :
    ∃ instantiated, Ty.instantiateTo depth env [] store type = .ok instantiated ∧
        Ty.IsInstance (.plain env) σ type instantiated := by
  apply Ty.instantiateTo_of_acyclic hσ.plain hσ.acyclic hσ.solves h.plain
  have hheight := h.within.height_le
  have hcard := hσ.card_boundNames_le
  rw [room] at hdepth
  omega

/-! ## The beginning -/

def ofTypes (store : Store) (left right : Ty) : Stock where
  terms := left.term.nodes ++ right.term.nodes ++ store.nodes
  names := left.term.vars ++ right.term.vars ++ store.vars ++ Table.keys store.bindings

section OfTypes

variable {left right : Ty} (hacyclic : store.Acyclic) (hσ : store.Solves σ)

include hacyclic hσ

theorem within_ofTypes (hnodes : ∀ inner ∈ term.nodes, inner ∈ (ofTypes store left right).terms)
    (hvars : ∀ name ∈ term.vars, name ∈ (ofTypes store left right).names) :
    (ofTypes store left right).Within σ term := by
  constructor
  · intro inner hinner
    rcases mem_nodes_subst hinner with
      ⟨original, horiginal, rfl⟩ | ⟨name, hname, hinner⟩
    · exact ⟨original, hnodes original horiginal, rfl⟩
    · obtain ⟨original, horiginal, rfl⟩ := hσ.mem_nodes hacyclic hinner
      exact ⟨original, mem_append_right _ horiginal, rfl⟩
  · intro name hname
    obtain ⟨inner, hinner, hname⟩ := (mem_vars_subst _ _ _).mp hname
    rcases hσ.mem_vars hacyclic hname with rfl | hmem
    · exact hvars name hinner
    · simp [ofTypes, hmem]

theorem holds_ofTypes (hplain : store.IsPlain env) :
    (ofTypes store left right).Holds env store σ where
  plain := hplain
  acyclic := hacyclic
  solves := hσ
  bound := by
    intro name hname
    exact mem_append_right _ ((Table.contains_iff _ _).mp hname)
  within := by
    intro name hname
    apply within_ofTypes hacyclic hσ
    · simp
    · intro other hother
      rw [vars_var, mem_singleton] at hother
      rwa [hother]

theorem fits_ofTypes (hleft : left.isPlain env = true) (hright : right.isPlain env = true)
    (htype : type = left ∨ type = right) :
    (ofTypes store left right).Fits env σ (ofTypes store left right).terms.length type := by
  have hwithin : (ofTypes store left right).Within σ type.term := by
    apply within_ofTypes hacyclic hσ
    · rcases htype with rfl | rfl <;> intro inner hinner <;> simp [ofTypes, hinner]
    · rcases htype with rfl | rfl <;> intro name hname <;> simp [ofTypes, hname]
  refine ⟨?_, hwithin, hwithin.atMost⟩
  rcases htype with rfl | rfl
  · exact hleft
  · exact hright

end OfTypes

theorem length_ofTypes (store : Store) (left right : Ty) : (ofTypes store left right).terms.length +
        (ofTypes store left right).names.length =
      left.size + right.size + store.weight + store.size := by
  have hleft := left.parts_term
  have hright := right.parts_term
  have hstore := store.length_nodes_add_length_vars
  rw [parts] at hleft hright
  simp only [ofTypes, length_append, Table.keys, length_map, size]
  omega

/-! ## Binding a variable -/

theorem Holds.within_extend (hσ : stock.Holds env store σ) (hwithin : stock.Within σ type.term)
    (hoccurs : name ∉ (type.term.subst σ).vars) {other : String} (hother : other ∈ stock.names) :
    stock.Within (σ.extend name (type.term.subst σ)) (.var other) := by
  have hvar := hσ.within other hother
  constructor
  · intro inner hinner
    rw [subst_var, Subst.extend] at hinner
    rcases mem_nodes_subst hinner with
      ⟨earlier, hearlier, rfl⟩ | ⟨replaced, hreplaced, hinner⟩
    · obtain ⟨original, horiginal, rfl⟩ := hvar.nodes earlier hearlier
      exact ⟨original, horiginal, (Subst.subst_extend _ _ _ _).symm⟩
    · rw [Subst.single] at hinner
      split at hinner
      · -- The new binding does not occur in what it puts for the variable.
        obtain ⟨original, horiginal, rfl⟩ := hwithin.nodes inner hinner
        refine ⟨original, horiginal, ?_⟩
        rw [Subst.subst_extend, Subst.subst_single_of_not_mem]
        exact fun hmem => hoccurs (mem_vars_of_mem_nodes hinner hmem)
      · simp at hinner
  · intro inner hinner
    rw [subst_var, Subst.extend, mem_vars_subst] at hinner
    obtain ⟨replaced, hreplaced, hinner⟩ := hinner
    rw [Subst.single] at hinner
    split at hinner
    · exact hwithin.vars inner hinner
    · rw [vars_var, mem_singleton] at hinner
      rw [hinner]
      exact hvar.vars replaced hreplaced

/-- An unbound variable may be bound to a type in which it does not occur,
and that solves the equation between them. -/
theorem Holds.bind (hσ : stock.Holds env store σ) (hunbound : store.get? name = none)
    (hname : name ∈ stock.names) (htype : type.isPlain env = true)
    (hwithin : stock.Within σ type.term) (hoccurs : name ∉ (type.term.subst σ).vars) (free : Bool) :
    ∃ σ', stock.Holds env (store.bind name type free) σ' ∧
      σ.MostGeneral σ' fun θ => θ name = type.term.subst θ := by
  refine ⟨σ.extend name (type.term.subst σ), ?_, ?_⟩
  · constructor
    · exact hσ.plain.bind htype name free
    · exact hσ.solves.acyclic_bind hσ.acyclic hunbound hoccurs free
    · exact hσ.solves.bind hunbound hoccurs free
    · intro other hother
      rw [isBound, get?_bind] at hother
      split at hother
      · rename_i heq
        exact heq ▸ hname
      · exact hσ.bound other hother
    · exact fun other hother => hσ.within_extend hwithin hoccurs hother
  · exact .extend hσ.absorbs_self (hσ.solves.unbound name hunbound) _

end Stock

/-! ## What a step achieves -/

/-- A step meets its goal in the most general way, or it stops because the
goal cannot be met.  It never runs out of depth. -/
def Outcome (stock : Stock) (env : TypeEnv) (σ : Subst)
    (goal : Subst → Prop) {α : Type} (good : Subst → α → Prop) :
    Except MergeFault (α × Store) → Prop
  | .ok (result, store) =>
    ∃ σ', stock.Holds env store σ' ∧ σ.MostGeneral σ' goal ∧ good σ' result
  | .error fault =>
    fault ≠ .fault .endless ∧ ∀ θ : Subst, θ.Absorbs σ → ¬ goal θ

namespace Outcome

variable {stock : Stock} {env : TypeEnv} {σ : Subst} {goal whole : Subst → Prop} {α β : Type}
  {good best : Subst → α → Prop} {better : Subst → β → Prop}
variable {result : Except MergeFault (α × Store)}

section

variable (h : Outcome stock env σ goal good result)
include h

theorem bind {next : α × Store → Except MergeFault (β × Store)} (rest : Subst → Prop)
    (hwhole : ∀ θ, goal θ ∧ rest θ ↔ whole θ)
    (hnext : ∀ value store' σ', stock.Holds env store' σ' → σ'.Absorbs σ → good σ' value →
      Outcome stock env σ' rest better (next (value, store'))) :
    Outcome stock env σ whole better (result >>= next) := by
  simp only [funext fun θ => propext (hwhole θ).symm]
  cases result with
  | error fault => exact ⟨h.1, fun θ hθ hboth => h.2 θ hθ hboth.1⟩
  | ok pair =>
    obtain ⟨value, store'⟩ := pair
    obtain ⟨σ', hσ', hgeneral, hgood⟩ := h
    have hrest := hnext value store' σ' hσ' (hgeneral.absorbs hσ'.absorbs_self) hgood
    change Outcome stock env σ _ _ (next (value, store'))
    cases hlast : next (value, store') with
    | error fault =>
      rw [hlast] at hrest
      refine ⟨hrest.1, fun θ hθ hboth => ?_⟩
      exact hrest.2 θ ((hgeneral θ).mpr ⟨hθ, hboth.1⟩) hboth.2
    | ok last =>
      rw [hlast] at hrest
      obtain ⟨σ'', hσ'', hgeneral', hbetter⟩ := hrest
      exact ⟨σ'', hσ'', hgeneral.and hgeneral', hbetter⟩

theorem congr (hiff : ∀ θ : Subst, θ.Absorbs σ → (goal θ ↔ whole θ))
    (hgood : ∀ σ' value, σ'.Absorbs σ → whole σ' → good σ' value → best σ' value) :
    Outcome stock env σ whole best result := by
  cases result with
  | error fault => exact ⟨h.1, fun θ hθ hwhole => h.2 θ hθ ((hiff θ hθ).mpr hwhole)⟩
  | ok pair =>
    obtain ⟨σ', hσ', hgeneral, hvalue⟩ := h
    have hwhole := hgeneral.congr hiff
    exact ⟨σ', hσ', hwhole, hgood σ' pair.1
      (hwhole.absorbs hσ'.absorbs_self) (hwhole.meets hσ'.absorbs_self)
      hvalue⟩

theorem map {f : α → β} (hgood : ∀ σ' value, σ'.Absorbs σ → good σ' value → better σ' (f value)) :
    Outcome stock env σ goal better (result >>= fun pair => pure (f pair.1, pair.2)) := by
  cases result with
  | error fault => exact h
  | ok pair =>
    obtain ⟨σ', hσ', hgeneral, hvalue⟩ := h
    exact ⟨σ', hσ', hgeneral, hgood σ' pair.1 (hgeneral.absorbs hσ'.absorbs_self) hvalue⟩

end

theorem of_not {fault : MergeFault} (hfault : fault ≠ .fault .endless)
    (h : ∀ θ : Subst, θ.Absorbs σ → ¬ goal θ) : Outcome stock env σ goal good (.error fault) :=
  ⟨hfault, h⟩

end Outcome

end Sml
