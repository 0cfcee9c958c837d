import Mathlib.Algebra.Order.BigOperators.Group.List
import Sml.Proofs.Instantiation

/-!
# What a type stands for under a store

The rules of `Store.Resolves` say what becomes of a type when the bindings of
a store are followed and nothing has to be unfolded.  They count no depth and
remember no path: a type that leads back to itself has no derivation.  Any
type may occur, schemes and records that are not complete included.

Instantiation finds what the rules give, and in a type that mentions no
abbreviation it finds nothing else.
-/

namespace Sml

open List Option Term Ty TypeEnv

def TypeEnv.shown (env : TypeEnv) (head : TyCon) : TyCon := { head with
    hidden := head.hidden || (env.definition? head).any fun info => info.type.isHidden }

/-- Whether a type is a former that stays what it is when its components are
resolved. -/
def Ty.isFormed (env : TypeEnv) : Ty → Bool
  | .var _ _ _ | .tuple _ => false
  | .con head arguments => env.takes head arguments.length
  | _ => true

def Ty.shownHead (env : TypeEnv) : Ty → Ty
  | .con head arguments => .con (env.shown head) arguments
  | type => type

variable {binding : Binding} {domain : List Ty} {free : Bool} {seen : List String}
variable {type result : Ty} {store other : Store} {first : String} {env : TypeEnv} {f g : Ty → Ty}

namespace Ty

theorem isVar_of_isFormed (h : type.isFormed env = true) : type.isVar = false := by
  cases type with
  | var => cases h
  | _ => rfl

@[simp] theorem isFormed_mapComponents (f : Ty → Ty) (type : Ty) :
    (type.mapComponents f).isFormed env = type.isFormed env := by
  cases type <;> simp [isFormed, mapComponents]

@[simp] theorem components_shownHead (env : TypeEnv) (type : Ty) :
    (type.shownHead env).components = type.components := by
  cases type <;> rfl

theorem components_formed (env : TypeEnv) (f : Ty → Ty) (type : Ty) :
    ((type.shownHead env).mapComponents f).components = type.components.map f := by
  rw [components_mapComponents, components_shownHead]

theorem shownHead_mapComponents (env : TypeEnv) (f : Ty → Ty) (type : Ty) :
    (type.mapComponents f).shownHead env = (type.shownHead env).mapComponents f := by
  cases type <;> rfl

theorem untupled_of_isFormed (h : type.isFormed env = true) : type.untupled = type := by
  cases type with
  | tuple => cases h
  | _ => rfl

theorem isVar_formed (h : type.isFormed env = true) :
    ((type.shownHead env).mapComponents f).isVar = false := by
  cases type with
  | var => cases h
  | _ => rfl

theorem shownHead_formed (env : TypeEnv) (f : Ty → Ty) (type : Ty) :
    ((type.shownHead env).mapComponents f).shownHead env =
      (type.shownHead env).mapComponents f := by
  cases type with
  | con head arguments => simp [shownHead, mapComponents, TypeEnv.shown, definition?]
  | _ => rfl

theorem term_formed (h : type.isVar = false) {σ : Subst}
    (hparts : ∀ part ∈ type.components, (f part).term = part.term.subst σ) :
    ((type.shownHead env).mapComponents f).term = type.term.subst σ := by
  rw [← term_mapComponents h hparts]
  cases type with
  | con => simp [shownHead, mapComponents, TypeEnv.shown]
  | _ => rfl

end Ty

namespace Store

def narrow (store : Store) (name : String) (domain : List Ty) : List Ty :=
  ((store.domain? name).map (mergeDomain domain)).getD domain

inductive Resolves (env : TypeEnv) (store : Store) : Ty → Ty → Prop
  | any : Resolves env store .any .any
  | unbound {name : String} (domain : List Ty) (free : Bool) :
      store.get? name = none →
      Resolves env store (.var name domain free) (.var name (store.narrow name domain) free)
  | bound {name : String} {binding : Binding} {result : Ty}
      (domain : List Ty) (free : Bool) :
      store.get? name = some binding →
      Resolves env store binding.type result →
      Resolves env store (.var name domain free) result
  | bind {body result : Ty} (name : String) (domain : List Ty) (free : Bool) :
      Resolves env store body result →
      Resolves env store (.bind name domain free body) (.bind name domain free result)
  | record {fields : List (String × Ty)} (complete : Bool) (f : Ty → Ty) :
      (∀ field ∈ fields, Resolves env store field.2 (f field.2)) →
      Resolves env store (.record fields complete) (.record (Table.mapValues f fields) complete)
  | arrow {parameter result parameter' result' : Ty} :
      Resolves env store parameter parameter' →
      Resolves env store result result' →
      Resolves env store (.arrow parameter result) (.arrow parameter' result')
  | con {head : TyCon} {arguments : List Ty} (f : Ty → Ty) :
      env.takes head arguments.length = true →
      (∀ argument ∈ arguments, Resolves env store argument (f argument)) →
      Resolves env store (.con head arguments) (.con (env.shown head) (arguments.map f))
  | tuple {elements : List Ty} {result : Ty} :
      Resolves env store (simplify (.tuple elements)) result →
      Resolves env store (.tuple elements) result

/-- The type mentions the variable, or a variable bound to a type that leads
to it. -/
def Leads (store : Store) (type : Ty) (name : String) : Prop :=
  ∃ first ∈ type.term.vars, Relation.ReflTransGen store.Depends first name

section Leads

variable {store : Store} {type other : Ty} {name : String}

theorem Leads.of_mem (h : name ∈ type.term.vars) : store.Leads type name := ⟨name, h, .refl⟩

theorem Leads.mono (h : store.Leads type name)
    (hvars : ∀ inner ∈ type.term.vars, inner ∈ other.term.vars) : store.Leads other name := by
  obtain ⟨first, hfirst, hpath⟩ := h
  exact ⟨first, hvars first hfirst, hpath⟩

theorem Leads.tail {next : String} (h : store.Leads type name)
    (hstep : store.Depends name next) : store.Leads type next := by
  obtain ⟨first, hfirst, hpath⟩ := h
  exact ⟨first, hfirst, hpath.tail hstep⟩

theorem Leads.through (hfirst : store.get? first = some binding)
    (h : store.Leads binding.type name) : store.Leads (.var first domain free) name := by
  obtain ⟨inner, hinner, hpath⟩ := h
  exact ⟨first, by simp, hpath.head ⟨binding, hfirst, hinner⟩⟩

theorem leads_var_iff :
    store.Leads (.var first domain free) name ↔
      Relation.ReflTransGen store.Depends first name := by
  simp [Leads]

theorem leads_iff (h : type.isVar = false) :
    store.Leads type name ↔ ∃ part ∈ type.components, store.Leads part name := by
  constructor
  · rintro ⟨first, hfirst, hpath⟩
    obtain ⟨part, hpart, hfirst⟩ := (mem_vars_iff h first).mp hfirst
    exact ⟨part, hpart, first, hfirst, hpath⟩
  · rintro ⟨part, hpart, hleads⟩
    exact hleads.mono fun inner hinner => (mem_vars_iff h inner).mpr ⟨part, hpart, hinner⟩

theorem leads_simplify_iff : store.Leads type.simplify name ↔ store.Leads type name := by
  rw [Leads, term_simplify, Leads]

end Leads

namespace Resolves

variable {env : TypeEnv} {store : Store} {type result : Ty}

theorem unique {other : Ty} (h : Resolves env store type result)
    (hother : Resolves env store type other) : result = other := by
  induction h generalizing other with
  | any => cases hother; rfl
  | unbound domain free hname =>
    cases hother with
    | unbound => rfl
    | bound _ _ hbinding => simp [hname] at hbinding
  | bound domain free hbinding _ ih =>
    cases hother with
    | unbound _ _ hname => simp [hbinding] at hname
    | bound _ _ hfound hresolves =>
      rw [hbinding] at hfound
      cases hfound
      exact ih hresolves
  | bind _ _ _ _ ih =>
    cases hother with
    | bind _ _ _ hbody => rw [ih hbody]
  | record complete f _ ih =>
    cases hother with
    | record _ g hfields =>
      refine congrArg (Ty.record · complete) (map_congr_left fun field hfield => ?_)
      rw [ih field hfield (hfields field hfield)]
  | arrow _ _ ihParameter ihResult =>
    cases hother with
    | arrow hparameter hresult => rw [ihParameter hparameter, ihResult hresult]
  | con f _ _ ih =>
    cases hother with
    | con g _ harguments =>
      rw [map_congr_left fun argument hargument =>
        ih argument hargument (harguments argument hargument)]
  | tuple _ ih =>
    cases hother with
    | tuple h => exact ih h

theorem exists_choice (env : TypeEnv) (store : Store) :
    ∃ f : Ty → Ty, ∀ type result, store.Resolves env type result → f type = result := by
  have hself : ∀ type, (∃ result, store.Resolves env type result) →
      ∃ result, store.Resolves env type result := fun _ => id
  choose! f hf using hself
  exact ⟨f, fun type result h => (hf type ⟨result, h⟩).unique h⟩

/-! ## Components -/

theorem node (hform : type.isFormed env = true)
    (h : ∀ part ∈ type.components, Resolves env store part (f part)) :
    Resolves env store type ((type.shownHead env).mapComponents f) := by
  cases type with
  | any => exact .any
  | var | tuple => cases hform
  | bind name domain free body => exact .bind name domain free (h body mem_cons_self)
  | record fields complete => exact .record complete f (forall_mem_map.mp h)
  | arrow parameter result =>
    exact .arrow (h parameter mem_cons_self) (h result (by simp [components]))
  | con head arguments => exact .con f hform h

/-- Between two types of one form, given what becomes of the components. -/
theorem node_map (hform : type.isFormed env = true)
    (h : ∀ part ∈ type.components, Resolves env store (f part) (g part)) :
    Resolves env store (type.mapComponents f) ((type.shownHead env).mapComponents g) := by
  obtain ⟨choice, hchoice⟩ := exists_choice env store
  have hparts : ∀ part ∈ type.components, choice (f part) = g part :=
    fun part hpart => hchoice _ _ (h part hpart)
  have hnode : Resolves env store (type.mapComponents f)
      (((type.mapComponents f).shownHead env).mapComponents choice) := by
    refine node (by rwa [isFormed_mapComponents]) ?_
    rw [components_mapComponents]
    refine forall_mem_map.mpr fun part hpart => ?_
    rw [hparts part hpart]
    exact h part hpart
  rwa [shownHead_mapComponents, mapComponents_mapComponents,
    mapComponents_congr (f := choice ∘ f) (g := g) (by simpa using hparts)] at hnode

theorem exists_node (hform : type.isFormed env = true)
    (h : ∀ part ∈ type.components, ∃ result, Resolves env store part result) :
    ∃ result, Resolves env store type result := by
  choose! f hf using h
  exact ⟨_, node hform hf⟩

/-- Induction with one case for all formers. -/
@[elab_as_elim]
theorem induct_node {motive : (type result : Ty) → Resolves env store type result → Prop}
    (unbound : ∀ {name} domain free (hname : store.get? name = none),
      motive (.var name domain free) (.var name (store.narrow name domain) free)
        (.unbound domain free hname))
    (bound : ∀ {name binding result} domain free (hbinding : store.get? name = some binding)
      (h : Resolves env store binding.type result), motive binding.type result h →
      motive (.var name domain free) result (.bound domain free hbinding h))
    (node : ∀ {type} (f : Ty → Ty) (hform : type.isFormed env = true)
      (h : ∀ part ∈ type.components, Resolves env store part (f part)),
      (∀ part hpart, motive part (f part) (h part hpart)) →
      motive type ((type.shownHead env).mapComponents f) (.node hform h))
    (tuple : ∀ {elements result} (h : Resolves env store (simplify (.tuple elements)) result),
      motive (simplify (.tuple elements)) result h → motive (.tuple elements) result (.tuple h))
    (h : Resolves env store type result) : motive type result h := by
  obtain ⟨choice, hchoice⟩ := exists_choice env store
  induction h with
  | any => exact @node .any id rfl nofun nofun
  | unbound domain free hname => exact unbound domain free hname
  | bound domain free hbinding h ih => exact bound domain free hbinding h ih
  | @bind body result name domain free h ih =>
    exact @node (.bind name domain free body) (fun _ => result) rfl
      (forall_mem_singleton.mpr h) fun part hpart => by cases mem_singleton.mp hpart; exact ih
  | @record fields complete f h ih =>
    exact @node (.record fields complete) f rfl (forall_mem_map.mpr h) fun part hpart => by
      obtain ⟨field, hfield, rfl⟩ := List.mem_map.mp hpart
      exact ih field hfield
  | @arrow parameter result _ _ hparameter hresult ihParameter ihResult =>
    cases hchoice _ _ hparameter
    cases hchoice _ _ hresult
    refine @node (.arrow parameter result) choice rfl ?_ ?_
    · simp [components, hparameter, hresult]
    · intro part hpart
      rcases (by simpa [components] using hpart : part = parameter ∨ part = result) with rfl | rfl
      · exact ihParameter
      · exact ihResult
  | @con head arguments f htakes h ih =>
    exact @node (.con head arguments) f htakes h ih
  | tuple h ih => exact tuple h ih

/-! ## Variables -/

section Result

variable (h : Resolves env store type result)
include h

theorem mem_vars_iff (name : String) :
    name ∈ result.term.vars ↔ store.Leads type name ∧ store.get? name = none := by
  induction h using induct_node with
  | @unbound other domain free hother =>
    rw [leads_var_iff, term_var, vars_var, mem_singleton]
    constructor
    · rintro rfl
      exact ⟨.refl, hother⟩
    · rintro ⟨hpath, _⟩
      rcases hpath.cases_head with rfl | ⟨_, ⟨binding, hbinding, _⟩, _⟩
      · rfl
      · simp [hother] at hbinding
  | @bound other binding result domain free hbinding _ ih =>
    rw [ih]
    refine ⟨fun ⟨hleads, hname⟩ => ⟨hleads.through hbinding, hname⟩, ?_⟩
    rintro ⟨hleads, hname⟩
    rcases (leads_var_iff.mp hleads).cases_head with
      rfl | ⟨first, ⟨found, hfound, hfirst⟩, hpath⟩
    · simp [hname] at hbinding
    · rw [hbinding] at hfound
      cases hfound
      exact ⟨⟨first, hfirst, hpath⟩, hname⟩
  | node f hform _ ih =>
    rw [Ty.mem_vars_iff (isVar_formed hform), leads_iff (isVar_of_isFormed hform),
      components_formed]
    simp only [List.mem_map, exists_exists_and_eq_and]
    constructor
    · rintro ⟨part, hpart, hname⟩
      obtain ⟨hleads, hunbound⟩ := (ih part hpart).mp hname
      exact ⟨⟨part, hpart, hleads⟩, hunbound⟩
    · rintro ⟨⟨part, hpart, hleads⟩, hunbound⟩
      exact ⟨part, hpart, (ih part hpart).mpr ⟨hleads, hunbound⟩⟩
  | tuple _ ih => rw [ih, leads_simplify_iff]

variable {name : String}

theorem unbound_of_mem (hname : name ∈ result.term.vars) : store.get? name = none :=
  ((h.mem_vars_iff name).mp hname).2

/-! ## Changing the store -/

theorem congr (hget : ∀ name, store.Leads type name → other.get? name = store.get? name)
    (hdomains : other.domains = store.domains) : Resolves env other type result := by
  induction h using induct_node with
  | @unbound name domain free hname =>
    have hnarrow : other.narrow name domain = store.narrow name domain := by
      rw [narrow, domain?, hdomains]
      rfl
    rw [← hnarrow]
    exact .unbound domain free (by rw [hget _ (.of_mem (by simp)), hname])
  | bound domain free hbinding _ ih =>
    refine .bound domain free ?_ (ih fun name hname => ?_)
    · rw [hget _ (.of_mem (by simp)), hbinding]
    · exact hget name (hname.through hbinding)
  | node f hform _ ih =>
    refine .node hform fun part hpart => ih part hpart fun name hname => ?_
    exact hget name ((leads_iff (isVar_of_isFormed hform)).mpr ⟨part, hpart, hname⟩)
  | tuple _ ih => exact .tuple (ih fun name hname => hget name (leads_simplify_iff.mp hname))

theorem bind_other (hunbound : store.get? name = none)
    (hname : name ∉ result.term.vars) (bound : Ty) (free : Bool) :
    Resolves env (store.bind name bound free) type result := by
  refine h.congr (fun other hother => ?_) rfl
  rw [get?_bind, if_neg]
  rintro rfl
  exact hname ((h.mem_vars_iff _).mpr ⟨hother, hunbound⟩)

omit h in
theorem bind_last (h : Resolves env store type (.var name domain free))
    (hunbound : store.get? name = none) {bound target : Ty} {marked : Bool}
    (htarget : ∀ domain free, Resolves env (store.bind name bound marked)
      (.var name domain free) target) :
    Resolves env (store.bind name bound marked) type target := by
  generalize hresult : var name domain free = result at h
  induction h with
  | unbound => cases hresult; exact htarget _ _
  | @bound other binding _ domain free hbinding _ ih =>
    refine .bound domain free ?_ (ih hresult)
    rw [get?_bind, if_neg, hbinding]
    rintro rfl
    simp [hunbound] at hbinding
  | tuple _ ih => exact .tuple (ih hresult)
  | any | bind | record | arrow | con => cases hresult

theorem ne_tuple (elements : List Ty) : result ≠ .tuple elements := by
  induction h with
  | bound _ _ _ _ ih => exact ih
  | tuple _ ih => exact ih
  | any | unbound | bind | record | arrow | con => rintro ⟨⟩

omit h in
theorem exists_var (h : Resolves env store type (.var name domain free)) :
    ∃ first domain free, type = .var first domain free := by
  cases h with
  | unbound | bound => exact ⟨_, _, _, rfl⟩
  | tuple h =>
    rw [simplify_tuple] at h
    cases h

theorem exists_of_forgotten
    (hget : ∀ name binding, other.get? name = some binding → store.get? name = some binding) :
    ∃ result, Resolves env other type result := by
  induction h using induct_node with
  | @unbound name domain free hname =>
    refine ⟨_, .unbound domain free ?_⟩
    cases hother : other.get? name with
    | none => rfl
    | some binding => simpa [hname] using hget name binding hother
  | @bound name binding _ domain free hbinding _ ih =>
    cases hother : other.get? name with
    | none => exact ⟨_, .unbound domain free hother⟩
    | some found =>
      have hfound := hget name found hother
      rw [hbinding] at hfound
      cases hfound
      obtain ⟨result, hresult⟩ := ih
      exact ⟨result, .bound domain free hother hresult⟩
  | node f hform _ ih => exact exists_node hform ih
  | tuple _ ih =>
    obtain ⟨result, hresult⟩ := ih
    exact ⟨result, .tuple hresult⟩

/-! ## Instantiation finds it -/

theorem acc (hname : store.Leads type name) :
    Acc (fun inner outer => store.Depends outer inner) name := by
  induction h using induct_node generalizing name with
  | @unbound other domain free hother =>
    rcases (leads_var_iff.mp hname).cases_head with
      rfl | ⟨_, ⟨binding, hbinding, _⟩, _⟩
    · refine .intro _ ?_
      rintro _ ⟨binding, hbinding, _⟩
      simp [hother] at hbinding
    · simp [hother] at hbinding
  | @bound other binding result domain free hbinding _ ih =>
    have hdown : ∀ inner, store.Depends other inner → store.Leads binding.type inner := by
      rintro inner ⟨found, hfound, hinner⟩
      rw [hbinding] at hfound
      cases hfound
      exact .of_mem hinner
    rcases (leads_var_iff.mp hname).cases_head with
      rfl | ⟨first, hstep, hpath⟩
    · exact .intro _ fun inner hinner => ih (hdown inner hinner)
    · obtain ⟨inner, hinner, hrest⟩ := hdown first hstep
      exact ih ⟨inner, hinner, hrest.trans hpath⟩
  | node f hform _ ih =>
    obtain ⟨part, hpart, hname⟩ := (leads_iff (isVar_of_isFormed hform)).mp hname
    exact ih part hpart hname
  | tuple _ ih => exact ih (leads_simplify_iff.mpr hname)

theorem not_around (hname : store.Leads type name) :
    ¬ Relation.TransGen store.Depends name name := by
  intro hcycle
  have hacc := (h.acc hname).transGen
  clear hname
  induction hacc with
  | intro name _ ih => exact ih name (Relation.transGen_swap.mpr hcycle) hcycle

omit h in
theorem not_leads_back (hbinding : store.get? name = some binding)
    (h : Resolves env store binding.type result) : ¬ store.Leads binding.type name := by
  intro hleads
  obtain ⟨first, hfirst, hpath⟩ := id hleads
  exact h.not_around hleads (.head' ⟨binding, hbinding, hfirst⟩ hpath)

end Result

end Resolves

/-- How deep following the binding of a variable can go by itself, once the
variable is seen not at all. -/
private def cost (seen : List String) (entry : String × Binding) : Nat :=
  if entry.1 ∈ seen then 0 else 2 * entry.2.type.size + 1

/-- The depth that the bindings of variables outside `seen` can take up: two
steps for each part of a type, and one to follow the binding. -/
def room (store : Store) (seen : List String) : Nat := (store.bindings.map (cost seen)).sum

theorem room_nil (store : Store) : store.room [] = 2 * store.weight + store.size := by
  obtain ⟨bindings, domains⟩ := store
  rw [room, weight, size]
  induction bindings with
  | nil => rfl
  | cons entry bindings ih =>
    simp only [map_cons, sum_cons, cost, not_mem_nil, if_false, foldr_cons, length_cons] at ih ⊢
    omega

private theorem cost_cons_le (name : String) (seen : List String)
    (entry : String × Binding) : cost (name :: seen) entry ≤ cost seen entry := by
  rw [cost, cost]
  split <;> split <;> simp_all

theorem room_follow {name : String} (hbinding : store.get? name = some binding)
    (hnew : name ∉ seen) :
    store.room (name :: seen) + (2 * binding.type.size + 1) ≤ store.room seen := by
  have hmem : (name, binding) ∈ store.bindings := Table.mem_of_get? hbinding
  rw [room, room]
  generalize store.bindings = bindings at hmem
  induction bindings with
  | nil => cases hmem
  | cons entry bindings ih =>
    rw [map_cons, map_cons, sum_cons, sum_cons]
    rcases mem_cons.mp hmem with rfl | hmem
    · have hrest := sum_le_sum (l := bindings) fun entry _ => cost_cons_le name seen entry
      have hseen : cost (name :: seen) (name, binding) = 0 := by simp [cost]
      have hunseen : cost seen (name, binding) = 2 * binding.type.size + 1 := by simp [cost, hnew]
      omega
    · have hrest := ih hmem
      have hentry := cost_cons_le name seen entry
      omega

end Store

theorem Ty.size_lt_of_mem {part : Ty} (h : part ∈ type.components) : part.size < type.size := by
  have hle := single_le_sum (by simp) _ (mem_map_of_mem (f := size) h)
  have hsize := type.size_eq
  omega

theorem Ty.height_pos (h : type.isVar = false) : 0 < type.term.height := by
  obtain ⟨former, hterm⟩ := exists_term_eq_node h
  rw [hterm, height]
  exact Nat.succ_pos _

theorem Ty.height_lt_of_mem {part : Ty} (h : part ∈ type.components) :
    part.term.height < type.term.height := by
  cases hvar : type.isVar with
  | true =>
    obtain ⟨name, domain, free, rfl⟩ := exists_of_isVar hvar
    cases h
  | false =>
    obtain ⟨former, hterm⟩ := exists_term_eq_node hvar
    rw [hterm]
    exact height_child_lt (mem_map_of_mem (type.components_untupled_perm.mem_iff.mpr h))

variable {depth : Nat}

theorem Ty.instantiateTo_con_eq {env : TypeEnv} {head : TyCon} {arguments results : List Ty}
    (htakes : env.takes head arguments.length = true)
    (hresults : arguments.mapM (instantiateTo depth env seen store) = .ok results) :
    instantiateTo (depth + 1) env seen store (con head arguments) =
      .ok (con (env.shown head) results) := by
  rw [instantiateTo, hresults, shown]
  rw [← length_of_mapM hresults, takes] at htakes
  cases hdefinition : env.definition? head with
  | none => simp
  | some info =>
    simp only [hdefinition, all_some, Bool.and_eq_true, Bool.not_eq_true', TypeInfo.isAbbreviation,
      isSome_eq_false_iff, isNone_iff_eq_none,
      beq_iff_eq] at htakes
    simp only [ok_bind, htakes.1, htakes.2, ne_eq, not_true_eq_false, if_false, any_some]
    rfl

theorem Ty.instantiateTo_node (hform : type.isFormed env = true)
    (h : ∀ part ∈ type.components, instantiateTo depth env seen store part = .ok (f part)) :
    instantiateTo (depth + 1) env seen store type =
      .ok ((type.shownHead env).mapComponents f) := by
  cases type with
  | any => rfl
  | var | tuple => cases hform
  | bind name domain free body =>
    rw [instantiateTo, h body mem_cons_self]
    rfl
  | record fields complete =>
    rw [instantiateTo, mapM_eq_ok (g := fun field => (field.1, f field.2))]
    · rfl
    · intro field hfield
      simp only [h field.2 (mem_map_of_mem hfield)]
      rfl
  | arrow parameter result =>
    rw [instantiateTo, h parameter mem_cons_self, h result (by simp [components])]
    rfl
  | con head arguments => exact instantiateTo_con_eq hform (mapM_eq_ok h)

namespace Store.Resolves

variable {env : TypeEnv} {store : Store} {type result : Ty}

section

variable (h : store.Resolves env type result)
include h

/-- Instantiation finds what a type stands for, if it has not come from a
variable that the type leads to. -/
theorem instantiateTo_eq (hseen : ∀ name ∈ seen, ¬ store.Leads type name)
    (hdepth : 2 * type.size + type.detour + store.room seen ≤ depth) :
    instantiateTo depth env seen store type = .ok result := by
  induction h using induct_node generalizing depth seen with
  | @unbound name domain free hname =>
    have hsize := (var name domain free).size_eq
    obtain ⟨depth, rfl⟩ := Nat.exists_eq_succ_of_ne_zero (by omega : depth ≠ 0)
    rw [instantiateTo, hname, narrow]
    cases store.domain? name <;> rfl
  | @bound name binding _ domain free hbinding hresolves ih =>
    have hnew : name ∉ seen := fun hmem => hseen name hmem (.of_mem (by simp))
    have hroom := room_follow hbinding hnew
    have hdetour := binding.type.detour_le_one
    have hsize := (var name domain free).size_eq
    obtain ⟨depth, rfl⟩ := Nat.exists_eq_succ_of_ne_zero (by omega : depth ≠ 0)
    rw [instantiateTo, hbinding]
    simp only [contains_iff_mem, hnew, if_false]
    refine ih ?_ (by omega)
    intro other hother
    rcases mem_cons.mp hother with rfl | hother
    · exact hresolves.not_leads_back hbinding
    · exact fun hleads => hseen other hother (hleads.through hbinding)
  | @node type f hform _ ih =>
    have hsize := type.size_eq
    obtain ⟨depth, rfl⟩ := Nat.exists_eq_succ_of_ne_zero (by omega : depth ≠ 0)
    -- Below a former two steps are saved, which leaves room for a detour.
    refine instantiateTo_node hform fun part hpart => ?_
    have hpartSize := size_lt_of_mem hpart
    have hdetour := part.detour_le_one
    refine ih part hpart (fun name hname hleads => ?_) (by omega)
    exact hseen name hname ((leads_iff (isVar_of_isFormed hform)).mpr ⟨part, hpart, hleads⟩)
  | @tuple elements _ hresolves ih =>
    have hsize := (Ty.tuple elements).size_eq
    obtain ⟨depth, rfl⟩ := Nat.exists_eq_succ_of_ne_zero (by omega : depth ≠ 0)
    refine ih (fun name hname hleads => ?_) ?_
    · exact hseen name hname (leads_simplify_iff.mp hleads)
    · rw [← parts_term, term_simplify, parts_term, simplify_tuple]
      simp only [detour] at hdepth ⊢
      omega

theorem instantiate_eq : type.instantiate env store = .ok result := by
  have hroom := store.room_nil
  have hdetour := type.detour_le_one
  refine h.instantiateTo_eq (by simp) ?_
  rw [unfoldingRoom]
  omega

theorem term_eq {σ : Subst} (hσ : store.Solves σ) : result.term = type.term.subst σ := by
  induction h using induct_node with
  | unbound domain free hname => exact (hσ.unbound _ hname).symm
  | bound domain free hbinding _ ih => exact ih.trans (hσ.bound _ _ hbinding).symm
  | node f hform _ ih => exact term_formed (isVar_of_isFormed hform) ih
  | tuple _ ih => rw [ih, term_simplify]

/-- The depth that instantiation needs: two steps for each former of the
result, a tuple being two, and one for each binding followed. -/
theorem instantiateTo_of_height {rank : String → Nat} (hranked : store.Ranked rank) {bound : Nat}
    (hrank : ∀ name ∈ type.term.vars, rank name < bound) (hseen : ∀ name ∈ seen, bound ≤ rank name)
    (hdepth : 2 * result.term.height + bound + type.detour ≤ depth) :
    instantiateTo depth env seen store type = .ok result := by
  induction h using induct_node generalizing depth seen bound with
  | @unbound name domain free hname =>
    simp only [detour] at hdepth
    obtain ⟨depth, rfl⟩ := Nat.exists_eq_succ_of_ne_zero (by omega : depth ≠ 0)
    rw [instantiateTo, hname, narrow]
    cases store.domain? name <;> rfl
  | @bound name binding _ domain free hbinding hresolves ih =>
    have hname := hrank name (by simp)
    simp only [detour] at hdepth
    obtain ⟨depth, rfl⟩ := Nat.exists_eq_succ_of_ne_zero (by omega : depth ≠ 0)
    have hnew : name ∉ seen := fun hmem => by
      have := hseen name hmem
      omega
    rw [instantiateTo, hbinding]
    simp only [contains_iff_mem, hnew, if_false]
    have hseen' : ∀ other ∈ name :: seen, rank name ≤ rank other := by
      intro other hother
      rcases mem_cons.mp hother with rfl | hother
      · exact le_rfl
      · exact hname.le.trans (hseen other hother)
    have hdetour := binding.type.detour_le_one
    exact ih (fun other hother => hranked _ _ ⟨binding, hbinding, hother⟩) hseen' (by omega)
  | @node type f hform _ ih =>
    have hpos := height_pos (isVar_formed (f := f) hform)
    obtain ⟨depth, rfl⟩ := Nat.exists_eq_succ_of_ne_zero (by omega : depth ≠ 0)
    -- Below a former the height falls by one, which leaves room for a
    -- detour.
    refine instantiateTo_node hform fun part hpart => ?_
    have hmem : f part ∈ ((type.shownHead env).mapComponents f).components := by
      rw [components_formed]
      exact mem_map_of_mem hpart
    have hlt := height_lt_of_mem hmem
    have hdetour := part.detour_le_one
    refine ih part hpart (fun name hname => hrank name ?_) hseen (by omega)
    exact (Ty.mem_vars_iff (isVar_of_isFormed hform) name).mpr ⟨part, hpart, hname⟩
  | @tuple elements _ hresolves ih =>
    simp only [Ty.detour] at hdepth
    obtain ⟨depth, rfl⟩ := Nat.exists_eq_succ_of_ne_zero (by omega : depth ≠ 0)
    refine ih (by rwa [term_simplify]) hseen ?_
    rw [simplify_tuple]
    simp only [detour]
    omega

theorem instantiateTo_of_acyclic (hacyclic : store.Acyclic)
    (hdepth : 2 * result.term.height + store.size + 2 ≤ depth) :
    instantiateTo depth env [] store type = .ok result := by
  obtain ⟨rank, hranked, hle⟩ := hacyclic.exists_ranked
  have hcard := store.card_boundNames_le
  have hdetour := type.detour_le_one
  exact h.instantiateTo_of_height hranked
    (fun name _ => Nat.lt_succ_of_le (hle name)) (by simp) (by omega)

theorem height_le (hacyclic : store.Acyclic) : result.term.height ≤ type.size + store.weight := by
  obtain ⟨σ, hσ⟩ := hacyclic.exists_solves
  have hheight := hσ.height_le hacyclic type.term
  have htypeParts := type.parts_term
  have hstoreParts := store.length_nodes_add_length_vars
  rw [parts] at htypeParts
  rw [h.term_eq hσ]
  omega

/-! ## What is resolved already -/

theorem again {f : String → List Ty → Bool → Ty} (hvars : ∀ name ∈ result.term.vars, ∀ domain free,
      other.Resolves env (.var name domain free) (f name domain free)) :
    other.Resolves env result (result.mapVariables f) := by
  induction h using induct_node with
  | unbound domain free _ => exact hvars _ (by simp) _ _
  | bound _ _ _ _ ih => exact ih hvars
  | @node type g hform _ ih =>
    have hshown : ((type.shownHead env).mapComponents g).isFormed env = true := by
      cases type <;>
        simp_all [isFormed, shownHead, mapComponents, TypeEnv.shown, takes, definition?]
    have hagain : other.Resolves env ((type.shownHead env).mapComponents g)
        ((((type.shownHead env).mapComponents g).shownHead env).mapComponents
          (mapVariables f)) := by
      refine .node hshown fun part hpart => ?_
      have hmem := hpart
      rw [components_formed] at hmem
      obtain ⟨original, horiginal, rfl⟩ := List.mem_map.mp hmem
      exact ih original horiginal fun name hname =>
        hvars name ((Ty.mem_vars_iff (isVar_formed hform) name).mpr ⟨_, hpart, hname⟩)
    rwa [shownHead_formed, ← mapVariables_eq f (isVar_formed hform)] at hagain
  | tuple _ ih => exact ih hvars

omit h in
theorem var_itself (hunbound : other.get? name = none) (hdomain : other.domain? name = none)
    (domain : List Ty) (free : Bool) :
    other.Resolves env (.var name domain free) (.var name domain free) := by
  have hvar : other.Resolves env (.var name domain free) _ := .unbound domain free hunbound
  rwa [narrow, hdomain] at hvar

/-- Where its variables are unbound and have no domain, a result stands for
itself. -/
theorem itself (hunbound : ∀ name ∈ result.term.vars, other.get? name = none)
    (hdomains : ∀ name ∈ result.term.vars, other.domain? name = none) :
    other.Resolves env result result := by
  have hagain := h.again fun name hname =>
    var_itself (hunbound name hname) (hdomains name hname)
  rwa [mapVariables_var] at hagain

end

end Store.Resolves

/-! ## And nothing else -/

namespace Ty

def isUnfolded (env : TypeEnv) : Ty → Bool := fold {
    any := true
    var := fun _ _ _ => true
    bind := fun _ _ _ _ body => body
    record := fun fields _ => fields.all (·.2)
    arrow := fun parameter result => parameter && result
    con := fun head arguments =>
      ((env.definition? head).all fun info => !info.isAbbreviation) && arguments.all id
    tuple := fun elements => elements.all id }

def HeadIn (H : TyCon → Nat → Prop) : Ty → Prop
  | .con head arguments => H head arguments.length
  | _ => True

/-- The type is no applied abbreviation. -/
def NotAbbreviated (env : TypeEnv) : Ty → Prop := HeadIn fun head _ =>
  ((env.definition? head).all fun info => !info.isAbbreviation) = true

section IsUnfolded

variable {env : TypeEnv}

theorem isUnfolded_iff_parts (type : Ty) : type.isUnfolded env = true ↔
    type.NotAbbreviated env ∧ ∀ part ∈ type.components, part.isUnfolded env = true := by
  cases type <;> simp [isUnfolded, NotAbbreviated, HeadIn, fold, components, Table.mapValues,
    -Prod.forall, -Prod.exists]

theorem isUnfolded_iff (type : Ty) :
    type.isUnfolded env = true ↔ type.Throughout (NotAbbreviated env) :=
  iff_throughout (·.isUnfolded env = true) isUnfolded_iff_parts type

theorem isUnfolded_record (fields : List (String × Ty)) (complete : Bool) :
    (record fields complete).isUnfolded env = true ↔
      ∀ field ∈ fields, field.2.isUnfolded env = true := by
  simp [isUnfolded, fold, Table.mapValues]

theorem isUnfolded_arrow (parameter result : Ty) : (arrow parameter result).isUnfolded env = true ↔
      parameter.isUnfolded env = true ∧ result.isUnfolded env = true := by
  simp [isUnfolded, fold]

theorem isUnfolded_con (head : TyCon) (arguments : List Ty) :
    (con head arguments).isUnfolded env = true ↔
      ((env.definition? head).all fun info => !info.isAbbreviation) = true ∧
        ∀ argument ∈ arguments, argument.isUnfolded env = true := by
  simp [isUnfolded, fold]

theorem isUnfolded_tuple (elements : List Ty) : (tuple elements).isUnfolded env = true ↔
      ∀ element ∈ elements, element.isUnfolded env = true := by
  simp [isUnfolded, fold]

theorem isUnfolded_simplify (h : type.isUnfolded env = true) :
    type.simplify.isUnfolded env = true := by
  rw [isUnfolded_iff] at h ⊢
  exact h.simplify fun type h => by
    cases type <;> simp_all [NotAbbreviated, HeadIn, untupled, mapComponents]

theorem MadeOf.isUnfolded {anys : Prop} {heads : TyCon → Nat → Prop}
    {occurs : String → List Ty → Prop} (h : MadeOf anys heads occurs type)
    (hheads : ∀ {head count}, heads head count →
      ((env.definition? head).all fun info => !info.isAbbreviation) = true) :
    type.isUnfolded env = true := by
  rw [madeOf_iff] at h
  refine (isUnfolded_iff _).mpr (h.mono fun type h => ?_)
  cases type with
  | con head arguments => exact hheads h
  | _ => trivial

end IsUnfolded

end Ty

theorem Ty.exists_of_instantiateTo_node (hhead : type.NotAbbreviated env)
    (hvar : type.isVar = false)
    (htuple : ∀ elements, type ≠ .tuple elements)
    (h : instantiateTo (depth + 1) env seen store type = .ok result) :
    type.isFormed env = true ∧ ∀ part ∈ type.components,
      ∃ found, instantiateTo depth env seen store part = .ok found := by
  cases type with
  | any => exact ⟨rfl, nofun⟩
  | var => cases hvar
  | tuple elements => exact absurd rfl (htuple elements)
  | bind name domain free body =>
    obtain ⟨found, hfound, _⟩ := bind_eq_ok h
    exact ⟨rfl, forall_mem_singleton.mpr ⟨found, hfound⟩⟩
  | record fields complete =>
    obtain ⟨results, hmap, _⟩ := bind_eq_ok h
    refine ⟨rfl, forall_mem_map.mpr fun field hfield => ?_⟩
    obtain ⟨_, hpair⟩ := eq_ok_of_mapM hmap field hfield
    obtain ⟨found, hfound, _⟩ := bind_eq_ok hpair
    exact ⟨found, hfound⟩
  | arrow parameter result =>
    obtain ⟨first, hfirst, hrest⟩ := bind_eq_ok h
    obtain ⟨second, hsecond, _⟩ := bind_eq_ok hrest
    exact ⟨rfl, by simp [components, hfirst, hsecond]⟩
  | con head arguments =>
    obtain ⟨_, results, hmap, _, htakes⟩ := exists_of_instantiateTo_con hhead h
    exact ⟨htakes, eq_ok_of_mapM hmap⟩

namespace Store

/-- Nothing has to be unfolded in the type and in what it leads to. -/
structure Settled (env : TypeEnv) (store : Store) (type : Ty) : Prop where
  itself : type.isUnfolded env = true
  bindings : ∀ {name binding}, store.Leads type name →
    store.get? name = some binding → binding.type.isUnfolded env = true

variable {env : TypeEnv} {store : Store} {type : Ty}

theorem Settled.of_bindings (htype : type.isUnfolded env = true)
    (hbindings : ∀ entry ∈ store.bindings, entry.2.type.isUnfolded env = true) :
    store.Settled env type :=
  ⟨htype, fun _ hbinding => hbindings _ (Table.mem_of_get? hbinding)⟩

theorem Settled.part (h : store.Settled env type) {part : Ty} (hpart : part.isUnfolded env = true)
    (hvars : ∀ name ∈ part.term.vars, name ∈ type.term.vars) : store.Settled env part :=
  ⟨hpart, fun hleads => h.bindings (hleads.mono hvars)⟩

theorem Settled.child (h : store.Settled env type) {part : Ty} (hpart : part ∈ type.components) :
    store.Settled env part := by
  refine h.part (((isUnfolded_iff_parts type).mp h.itself).2 part hpart) fun name hname => ?_
  cases hvar : type.isVar with
  | true =>
    obtain ⟨name, domain, free, rfl⟩ := exists_of_isVar hvar
    cases hpart
  | false => exact (mem_vars_iff hvar name).mpr ⟨part, hpart, hname⟩

theorem Settled.follow {name : String} (h : store.Settled env (.var name domain free))
    (hbinding : store.get? name = some binding) : store.Settled env binding.type :=
  ⟨h.bindings (.of_mem (by simp)) hbinding, fun hleads => h.bindings (hleads.through hbinding)⟩

theorem Resolves.of_instantiateTo (hsettled : store.Settled env type)
    (h : instantiateTo depth env seen store type = .ok result) :
    store.Resolves env type result := by
  induction depth generalizing seen type result with
  | zero => simp [instantiateTo] at h
  | succ depth ih =>
    by_cases htuple : ∃ elements, type = .tuple elements
    · obtain ⟨elements, rfl⟩ := htuple
      refine .tuple (ih (hsettled.part (isUnfolded_simplify hsettled.itself) ?_) h)
      rw [term_simplify]
      exact fun _ hname => hname
    cases hvar : type.isVar with
    | true =>
      obtain ⟨name, domain, free, rfl⟩ := exists_of_isVar hvar
      rw [instantiateTo] at h
      cases hbinding : store.get? name with
      | none =>
        have hresolves : store.Resolves env (.var name domain free)
            (.var name (store.narrow name domain) free) :=
          .unbound domain free hbinding
        rw [narrow] at hresolves
        rw [hbinding] at h
        simp only at h
        cases hdomain : store.domain? name with
        | none | some =>
          rw [hdomain] at h hresolves
          cases h
          exact hresolves
      | some binding =>
        rw [hbinding] at h
        simp only at h
        split at h
        · cases h
        · exact .bound domain free hbinding (ih (hsettled.follow hbinding) h)
    | false =>
      have hhead := ((isUnfolded_iff_parts type).mp hsettled.itself).1
      obtain ⟨hform, hparts⟩ :=
        exists_of_instantiateTo_node hhead hvar (not_exists.mp htuple) h
      choose! f hf using hparts
      rw [instantiateTo_node hform hf] at h
      cases h
      exact .node hform fun part hpart => ih (hsettled.child hpart) (hf part hpart)

theorem resolves_iff (hsettled : store.Settled env type) (result : Ty) :
    store.Resolves env type result ↔ type.instantiate env store = .ok result :=
  ⟨Resolves.instantiate_eq, Resolves.of_instantiateTo hsettled⟩

end Store

end Sml
