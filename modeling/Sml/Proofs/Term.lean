import Mathlib.Algebra.Ring.Nat
import Mathlib.Data.List.Basic
import Mathlib.Order.Lattice
import Mathlib.Order.Nat
import Sml.Table

/-!
# First-order terms

A term is a variable or a former with terms under it.  Types are read as
terms to reason about substitution: what a type is called by, where it is
found and whether it is hidden make no difference to which types are equal,
and a term leaves them out.

A substitution absorbs another if applying the other one first makes no
difference.  The substitutions that absorb `σ` are the instances of `σ`.
-/

namespace Sml

open List

/-- What stands at an inner node of a term. -/
inductive Former where
  | any
  | binder (name : String)
  | record (labels : List String) (complete : Bool)
  | arrow
  | con (name : String) (id : Nat)
deriving DecidableEq

inductive Term where
  | var (name : String)
  | node (former : Former) (children : List Term)

abbrev Subst := String → Term

variable {name : String}
variable {former : Former} {children : List Term} {τ θ σ : Subst} {term inner : Term}

namespace Term

@[elab_as_elim, induction_eliminator]
theorem induct {motive : Term → Prop} (var : ∀ name, motive (.var name))
    (node : ∀ former children, (∀ child ∈ children, motive child) → motive (.node former children))
    (term : Term) : motive term :=
  @Term.rec motive (fun children => ∀ child ∈ children, motive child) var node (by simp)
    (fun _ _ hhead htail child hchild => by
      rcases mem_cons.mp hchild with rfl | hchild
      · exact hhead
      · exact htail child hchild)
    term

mutual

def subst (σ : Subst) : Term → Term
  | .var name => σ name
  | .node former children => .node former (substAll σ children)

def substAll (σ : Subst) : List Term → List Term
  | [] => []
  | term :: rest => subst σ term :: substAll σ rest

end

mutual

def vars : Term → List String
  | .var name => [name]
  | .node _ children => varsAll children

def varsAll : List Term → List String
  | [] => []
  | term :: rest => vars term ++ varsAll rest

end

mutual

def nodes : Term → List Term
  | .var _ => []
  | .node former children => .node former children :: nodesAll children

def nodesAll : List Term → List Term
  | [] => []
  | term :: rest => nodes term ++ nodesAll rest

end

mutual

def height : Term → Nat
  | .var _ => 0
  | .node _ children => heightAll children + 1

def heightAll : List Term → Nat
  | [] => 0
  | term :: rest => max (height term) (heightAll rest)

end

/-! ## Lists of terms -/

theorem substAll_eq_map (σ : Subst) (terms : List Term) :
    substAll σ terms = terms.map (subst σ) := by
  induction terms with
  | nil => rfl
  | cons term terms ih => simp [substAll, ih]

theorem varsAll_eq_flatMap (terms : List Term) : varsAll terms = terms.flatMap vars := by
  induction terms with
  | nil => rfl
  | cons term terms ih => simp [varsAll, ih]

theorem nodesAll_eq_flatMap (terms : List Term) : nodesAll terms = terms.flatMap nodes := by
  induction terms with
  | nil => rfl
  | cons term terms ih => simp [nodesAll, ih]

theorem heightAll_le_iff (terms : List Term) (bound : Nat) :
    heightAll terms ≤ bound ↔ ∀ term ∈ terms, term.height ≤ bound := by
  induction terms with
  | nil => simp [heightAll]
  | cons term terms ih => simp [heightAll, ih]

@[simp] theorem subst_var (σ : Subst) (name : String) : (var name).subst σ = σ name := rfl

@[simp] theorem subst_node (σ : Subst) (former : Former) (children : List Term) :
    (node former children).subst σ = node former (children.map (subst σ)) := by
  rw [subst, substAll_eq_map]

@[simp] theorem vars_var (name : String) : (var name).vars = [name] := rfl

@[simp] theorem mem_vars_node (name : String) (former : Former) (children : List Term) :
    name ∈ (node former children).vars ↔ ∃ child ∈ children, name ∈ child.vars := by
  rw [vars, varsAll_eq_flatMap, mem_flatMap]

@[simp] theorem nodes_var (name : String) : (var name).nodes = [] := rfl

@[simp] theorem mem_nodes_node (inner : Term) (former : Former) (children : List Term) :
    inner ∈ (node former children).nodes ↔ inner = node former children ∨
        ∃ child ∈ children, inner ∈ child.nodes := by
  rw [nodes, nodesAll_eq_flatMap, mem_cons, mem_flatMap]

@[simp] theorem height_var (name : String) : (var name).height = 0 := rfl

theorem height_node_le_iff (former : Former) (children : List Term) (bound : Nat) :
    (node former children).height ≤ bound + 1 ↔ ∀ child ∈ children, child.height ≤ bound := by
  rw [height, Nat.add_le_add_iff_right, heightAll_le_iff]

theorem height_child_lt {child : Term} (h : child ∈ children) :
    child.height < (node former children).height := by
  have hle := (heightAll_le_iff children _).mp le_rfl child h
  exact Nat.lt_succ_of_le hle

/-! ## Substitution -/

variable {σ : Subst}

theorem subst_congr (h : ∀ name ∈ term.vars, σ name = τ name) : term.subst σ = term.subst τ := by
  induction term with
  | var name => exact h name (by simp)
  | node former children ih =>
    simp only [subst_node, node.injEq, true_and, map_inj_left]
    intro child hchild
    apply ih child hchild
    intro name hname
    exact h name ((mem_vars_node _ _ _).mpr ⟨child, hchild, hname⟩)

@[simp] theorem subst_var_eq_self (term : Term) : term.subst var = term := by
  induction term with
  | var name => rfl
  | node former children ih => rw [subst_node, map_congr_left ih, map_id']

theorem subst_of_vars_eq_nil (h : term.vars = []) (σ : Subst) : term.subst σ = term := by
  calc term.subst σ = term.subst var := subst_congr fun name hname => by simp [h] at hname
    _ = term := subst_var_eq_self term

theorem subst_subst (σ τ : Subst) (term : Term) :
    (term.subst σ).subst τ = term.subst fun name => (σ name).subst τ := by
  induction term with
  | var name => rfl
  | node former children ih =>
    simp only [subst_node, map_map, node.injEq, true_and, map_inj_left]
    exact ih

theorem mem_vars_subst (σ : Subst) (term : Term) (name : String) : name ∈ (term.subst σ).vars ↔
      ∃ inner ∈ term.vars, name ∈ (σ inner).vars := by
  induction term with
  | var inner => simp
  | node former children ih =>
    simp only [subst_node, mem_vars_node, mem_map]
    constructor
    · rintro ⟨_, ⟨child, hchild, rfl⟩, hname⟩
      obtain ⟨inner, hinner, hname⟩ := (ih child hchild).mp hname
      exact ⟨inner, ⟨child, hchild, hinner⟩, hname⟩
    · rintro ⟨inner, ⟨child, hchild, hinner⟩, hname⟩
      exact ⟨_, ⟨child, hchild, rfl⟩, (ih child hchild).mpr ⟨inner, hinner, hname⟩⟩

/-- A node of an instance is an instance of a node, or lies in what was put
for a variable. -/
theorem mem_nodes_subst (h : inner ∈ (term.subst σ).nodes) :
    (∃ original ∈ term.nodes, inner = original.subst σ) ∨
      ∃ name ∈ term.vars, inner ∈ (σ name).nodes := by
  induction term with
  | var name => exact .inr ⟨name, by simp, h⟩
  | node former children ih =>
    simp only [subst_node, mem_nodes_node, mem_map] at h
    rcases h with rfl | ⟨_, ⟨child, hchild, rfl⟩, hinner⟩
    · exact .inl ⟨node former children, by simp, by simp⟩
    · rcases ih child hchild hinner with
        ⟨original, horiginal, rfl⟩ | ⟨name, hname, hnode⟩
      · exact .inl ⟨original, (mem_nodes_node _ _ _).mpr (.inr ⟨child, hchild, horiginal⟩), rfl⟩
      · exact .inr ⟨name, (mem_vars_node _ _ _).mpr ⟨child, hchild, hname⟩, hnode⟩

theorem mem_vars_of_mem_nodes (h : inner ∈ term.nodes) (hname : name ∈ inner.vars) :
    name ∈ term.vars := by
  induction term with
  | var other => simp at h
  | node former children ih =>
    rw [mem_nodes_node] at h
    rcases h with rfl | ⟨child, hchild, h⟩
    · exact hname
    · exact (mem_vars_node _ _ _).mpr ⟨child, hchild, ih child hchild h⟩

/-! ## Size and height -/

def parts (term : Term) : Nat := term.nodes.length + term.vars.length

theorem parts_node (former : Former) (children : List Term) :
    (node former children).parts = (children.map parts).sum + 1 := by
  rw [parts, nodes, vars, nodesAll_eq_flatMap, varsAll_eq_flatMap,
    length_cons, length_flatMap, length_flatMap]
  have hsum : (children.map parts).sum = (children.map fun child => child.nodes.length).sum +
        (children.map fun child => child.vars.length).sum := by
    induction children with
    | nil => rfl
    | cons child children ih =>
      simp only [map_cons, sum_cons, ih, parts]
      omega
  omega

theorem height_le_of_mem_nodes (h : inner ∈ term.nodes) : inner.height ≤ term.height := by
  induction term with
  | var name => simp at h
  | node former children ih =>
    rw [mem_nodes_node] at h
    rcases h with rfl | ⟨child, hchild, h⟩
    · exact le_rfl
    · exact (ih child hchild h).trans (height_child_lt hchild).le

theorem height_le_of_mem_vars (h : name ∈ term.vars) : (σ name).height ≤ (term.subst σ).height := by
  induction term with
  | var other =>
    rw [vars_var, mem_singleton] at h
    rw [h, subst_var]
  | node former children ih =>
    obtain ⟨child, hchild, hname⟩ := (mem_vars_node _ _ _).mp h
    have hlt : (child.subst σ).height < (node former (children.map (subst σ))).height :=
      height_child_lt (mem_map.mpr ⟨child, hchild, rfl⟩)
    rw [subst_node]
    exact (ih child hchild hname).trans hlt.le

theorem subst_ne_of_occurs (h : name ∈ (node former children).vars) :
    σ name ≠ (node former children).subst σ := by
  intro heq
  obtain ⟨child, hchild, hname⟩ := (mem_vars_node _ _ _).mp h
  have hle := height_le_of_mem_vars (σ := σ) hname
  have hlt : (child.subst σ).height < (node former (children.map (subst σ))).height :=
    height_child_lt (mem_map.mpr ⟨child, hchild, rfl⟩)
  rw [heq, subst_node] at hle
  omega

/-- The nodes on a path are all different, so a term is no higher than the
number of its different nodes. -/
theorem height_le_length {pool : List Term} (h : ∀ inner ∈ term.nodes, inner ∈ pool) :
    term.height ≤ pool.length := by
  classical
  induction term generalizing pool with
  | var name => simp
  | node former children ih =>
    let whole := node former children
    have hwhole : whole ∈ pool := h whole (by simp [whole])
    have hshorter : (pool.filter (· ≠ whole)).length < pool.length :=
      length_filter_lt_length_iff_exists.mpr ⟨whole, hwhole, by simp⟩
    have hchildren : ∀ child ∈ children, child.height ≤ (pool.filter (· ≠ whole)).length := by
      intro child hchild
      apply ih child hchild
      intro inner hinner
      have hpool := h inner ((mem_nodes_node _ _ _).mpr (.inr ⟨child, hchild, hinner⟩))
      have hne : inner ≠ whole := by
        rintro rfl
        have hle := height_le_of_mem_nodes hinner
        have hlt : child.height < whole.height := height_child_lt hchild
        omega
      simp [hpool, hne]
    have hle := (height_node_le_iff former children _).mpr hchildren
    omega

end Term

/-! ## Instances of substitutions -/

namespace Subst

def single (name : String) (term : Term) : Subst :=
  fun other => if other = name then term else .var other

@[simp] theorem single_self (name : String) (term : Term) :
    single name term name = term := if_pos rfl

theorem subst_single_of_not_mem (h : name ∉ term.vars) (other : Term) :
    term.subst (single name other) = term := by
  calc term.subst (single name other) = term.subst .var := by
        apply Term.subst_congr
        intro inner hinner
        exact if_neg fun (heq : inner = name) => h (heq ▸ hinner)
    _ = term := Term.subst_var_eq_self term

def extend (σ : Subst) (name : String) (term : Term) : Subst :=
  fun other => (σ other).subst (single name term)

theorem subst_extend (σ : Subst) (name : String) (inner term : Term) :
    term.subst (σ.extend name inner) = (term.subst σ).subst (single name inner) :=
  (Term.subst_subst _ _ _).symm

/-- Applying `σ` before `θ` makes no difference. -/
def Absorbs (θ σ : Subst) : Prop := ∀ name, (σ name).subst θ = θ name

theorem Absorbs.subst (h : Absorbs θ σ) (term : Term) : (term.subst σ).subst θ = term.subst θ := by
  rw [Term.subst_subst]
  exact Term.subst_congr fun name _ => h name

theorem Absorbs.trans (hθ : Absorbs θ τ) (hτ : Absorbs τ σ) : Absorbs θ σ := by
  intro name
  calc (σ name).subst θ = ((σ name).subst τ).subst θ := (hθ.subst _).symm
    _ = (τ name).subst θ := by rw [hτ name]
    _ = θ name := hθ name

/-- Of the instances of `σ`, those of `τ` are the ones that meet the goal. -/
def MostGeneral (σ τ : Subst) (goal : Subst → Prop) : Prop :=
  ∀ θ : Subst, Absorbs θ τ ↔ Absorbs θ σ ∧ goal θ

section MostGeneral

variable {σ τ υ : Subst} {goal other : Subst → Prop}

theorem MostGeneral.absorbs (h : MostGeneral σ τ goal) (hτ : Absorbs τ τ) : Absorbs τ σ :=
  ((h τ).mp hτ).1

theorem MostGeneral.meets (h : MostGeneral σ τ goal) (hτ : Absorbs τ τ) : goal τ := ((h τ).mp hτ).2

theorem MostGeneral.and (hfirst : MostGeneral σ τ goal) (hsecond : MostGeneral τ υ other) :
    MostGeneral σ υ fun θ => goal θ ∧ other θ := by
  intro θ
  rw [hsecond θ, hfirst θ, and_assoc]

theorem MostGeneral.congr (h : MostGeneral σ τ goal)
    (hiff : ∀ θ, Absorbs θ σ → (goal θ ↔ other θ)) : MostGeneral σ τ other := by
  intro θ
  rw [h θ]
  exact and_congr_right (hiff θ)

theorem MostGeneral.extend (hσ : Absorbs σ σ) (hname : σ name = .var name) (term : Term) :
    MostGeneral σ (σ.extend name (term.subst σ)) fun θ => θ name = term.subst θ := by
  have habsorbs : Absorbs (σ.extend name (term.subst σ)) σ := by
    intro other
    rw [subst_extend, hσ other, Subst.extend]
  have hself : σ.extend name (term.subst σ) name = term.subst σ := by
    rw [Subst.extend, hname, Term.subst_var, single_self]
  intro θ
  constructor
  · intro hθ
    have hθσ := hθ.trans habsorbs
    have hequation : θ name = term.subst θ := by rw [← hθ name, hself, hθσ.subst]
    exact ⟨hθσ, hequation⟩
  · rintro ⟨hθ, hequation⟩ other
    have hsingle : ∀ inner, (single name (term.subst σ) inner).subst θ = θ inner := by
      intro inner
      by_cases heq : inner = name
      · rw [heq, single_self, hθ.subst, hequation]
      · rw [single, if_neg heq, Term.subst_var]
    calc (σ.extend name (term.subst σ) other).subst θ = (σ other).subst fun inner =>
            (single name (term.subst σ) inner).subst θ :=
          Term.subst_subst _ _ _
      _ = (σ other).subst θ := Term.subst_congr fun inner _ => hsingle inner
      _ = θ other := hθ other

end MostGeneral

end Subst

end Sml
