import Sml.Proofs.ElaborationHygiene
import Sml.Proofs.SignatureMatching
import Sml.Session.Interpret

/-!
# What is kept of a declaration

When a declaration at top level is finished, its types are resolved, open
overloading takes its default in what is published, and of the store only the
bindings of free variables are kept.  So a type keeps what was learned about
it exactly if every bound variable it leads to is bound as a free one.  A
default is not kept at all: the variable it replaces stays open for every type
that still leads to it.
-/

namespace Sml

open Elab Hygiene StaticBasis Table

/-! ## Bindings that are forgotten -/

variable {name : String}

namespace Store

variable {env : TypeEnv} {store : Store} {type result : Ty}

/-- Every bound variable that the type leads to is bound as a free one. -/
def LeadsFree (store : Store) (type : Ty) : Prop :=
  ∀ name binding, store.Leads type name → store.get? name = some binding → binding.free = true

theorem LeadsFree.of_names (names : List String) (hvars : ∀ name ∈ type.term.vars, name ∈ names)
    (hnames : ∀ name ∈ names, (store.get? name).all (fun binding =>
      binding.free && binding.type.term.vars.all (· ∈ names)) = true) : store.LeadsFree type := by
  have hstep : ∀ {name binding}, name ∈ names →
      store.get? name = some binding → binding.free = true ∧
        ∀ inner ∈ binding.type.term.vars, inner ∈ names := by
    intro name binding hname hbinding
    simpa [hbinding] using hnames name hname
  rintro name binding ⟨first, hfirst, hpath⟩ hbinding
  have hname : name ∈ names := by
    clear hbinding
    induction hpath with
    | refl => exact hvars first hfirst
    | tail _ hlast ih =>
      obtain ⟨found, hfound, hinner⟩ := hlast
      exact (hstep ih hfound).2 _ hinner
  exact (hstep hname hbinding).1

section

variable (hordered : Ordered store.bindings)
include hordered

theorem get?_of_freeOnly {binding : Binding} (h : store.freeOnly.get? name = some binding) :
    store.get? name = some binding := by
  rw [get?_freeOnly hordered, Option.filter_eq_some_iff] at h
  exact h.1

theorem freeOnly_get?_eq (hfree : ∀ binding, store.get? name = some binding → binding.free = true) :
    store.freeOnly.get? name = store.get? name := by
  rw [get?_freeOnly hordered]
  cases hname : store.get? name with
  | none => rfl
  | some binding => rw [Option.filter_some, hfree binding hname, if_pos rfl]

/-- Whether a way through the store stays open or not, what is forgotten on
it first can still be reached. -/
theorem Leads.freeOnly_or (hleads : store.Leads type name) :
    store.freeOnly.Leads type name ∨ ∃ first binding, store.freeOnly.Leads type first ∧
        store.get? first = some binding ∧ binding.free = false := by
  obtain ⟨start, hstart, hpath⟩ := hleads
  induction hpath with
  | refl => exact .inl (.of_mem hstart)
  | @tail inner next _ hstep ih =>
    rcases ih with hopen | hfirst
    · obtain ⟨binding, hbinding, hnext⟩ := hstep
      cases hfree : binding.free with
      | false => exact .inr ⟨inner, binding, hopen, hbinding, hfree⟩
      | true =>
        refine .inl (hopen.tail ⟨binding, ?_, hnext⟩)
        rw [get?_freeOnly hordered, hbinding, Option.filter_some, hfree, if_pos rfl]
    · exact .inr hfirst

/-- A type stands for the same without the forgotten bindings exactly if none
of them is on its way. -/
theorem resolves_freeOnly_iff (h : store.Resolves env type result) :
    store.freeOnly.Resolves env type result ↔ store.LeadsFree type := by
  constructor
  · intro hkept name binding hleads hbinding
    by_contra hforgotten
    rw [Bool.not_eq_true] at hforgotten
    -- The first variable whose binding is forgotten is still in the result.
    have hfirst : ∃ first binding, store.freeOnly.Leads type first ∧
        store.get? first = some binding ∧ binding.free = false := by
      rcases hleads.freeOnly_or hordered with hopen | hfirst
      · exact ⟨name, binding, hopen, hbinding, hforgotten⟩
      · exact hfirst
    obtain ⟨first, found, hopen, hfound, hnotFree⟩ := hfirst
    have hunbound : store.freeOnly.get? first = none := by
      simp [get?_freeOnly hordered, hfound, hnotFree]
    have hmem := (hkept.mem_vars_iff first).mpr ⟨hopen, hunbound⟩
    simp [h.unbound_of_mem hmem] at hfound
  · intro hfree
    exact h.congr (fun name hleads => freeOnly_get?_eq hordered
      fun binding => hfree name binding hleads) rfl

theorem exists_resolves_freeOnly (h : store.Resolves env type result) :
    ∃ other, store.freeOnly.Resolves env type other :=
  h.exists_of_forgotten fun _ _ => get?_of_freeOnly hordered

end

end Store

/-! ## A declaration before it is finished -/

/-- Elaborates a declaration at top level and leaves it unfinished.  Gives the
scope inside it and what it declares. -/
def elabGroup (scope : Scope) (declaration : Decl) : Elab (Scope × Changes) := do
  modify fun state => { state with level := 0 }
  let group ← nested scope
  let inner ← elabComplete group declaration
  let changes ← look fun tree => tree.changesSince inner (tree.level group)
  return (inner, changes)

theorem elabTopLevel_eq (scope : Scope) (declaration : Decl) :
    elabTopLevel scope declaration = elabGroup scope declaration >>=
      fun found => Elab.settle scope found.1 found.2 := by
  unfold elabTopLevel elabGroup
  simp only [bind_assoc, pure_bind]

/-! ## Values that are published -/

variable {after : ElabState} {value : StaticValue} {path : List String}

namespace Elab

variable {scope : Scope} {finish : Ty → Ty} {state : ElabState}

theorem resolve_eq_ok {type result : Ty} (h : resolve scope type state = .ok result after) :
    type.instantiate (state.tree.typeEnv scope) state.store = .ok result ∧ after = state := by
  rw [resolve, get_bind_apply] at h
  cases hfound : type.instantiate (state.tree.typeEnv scope) state.store with
  | error fault => simp only [hfound] at h; cases h
  | ok found =>
    simp only [hfound] at h
    cases h
    exact ⟨rfl, rfl⟩

theorem get?_resolveValues {values results : List (String × StaticValue)}
    (h : (values.mapM fun entry : String × StaticValue => do
      let type ← resolve scope entry.2.type
      return (entry.1, { entry.2 with type := finish type })) state =
        .ok results after) (hvalue : get? values name = some value) :
    ∃ resolved, value.type.instantiate (state.tree.typeEnv scope) state.store = .ok resolved ∧
      get? results name = some { value with type := finish resolved } := by
  induction values generalizing results with
  | nil => cases hvalue
  | cons entry values ih =>
    rw [List.mapM_cons] at h
    obtain ⟨first, middle, hfirst, h⟩ := bind_eq_ok_state h
    obtain ⟨resolved, _, hresolved, hentry⟩ := bind_eq_ok_state hfirst
    obtain ⟨hresolved, rfl⟩ := resolve_eq_ok hresolved
    obtain ⟨rfl, rfl⟩ := pure_eq_ok_state hentry
    obtain ⟨others, _, hothers, h⟩ := bind_eq_ok_state h
    obtain ⟨rfl, rfl⟩ := pure_eq_ok_state h
    rw [get?] at hvalue ⊢
    split at hvalue
    · rename_i hname
      cases hvalue
      exact ⟨resolved, hresolved, if_pos hname⟩
    · rename_i hname
      rw [if_neg hname]
      exact ih hothers hvalue

theorem get?_resolveStructures {structures results : List (String × StaticBasis)}
    (h : resolveStructures scope finish structures state = .ok results after)
    {basis : StaticBasis} (hbasis : get? structures name = some basis) :
    ∃ resolved, resolveBasis scope finish basis state = .ok resolved state ∧
      get? results name = some resolved := by
  induction structures generalizing results with
  | nil => cases hbasis
  | cons entry structures ih =>
    obtain ⟨first, middle, hfirst, h⟩ := bind_eq_ok_state h
    have hmiddle : state = middle := (advances_resolveBasis _ _ _).of_ok hfirst
    subst hmiddle
    obtain ⟨others, _, hothers, h⟩ := bind_eq_ok_state h
    obtain ⟨rfl, rfl⟩ := pure_eq_ok_state h
    rw [get?] at hbasis ⊢
    split at hbasis
    · rename_i hname
      cases hbasis
      exact ⟨first, hfirst, if_pos hname⟩
    · rename_i hname
      rw [if_neg hname]
      exact ih hothers hbasis

theorem valueAt?_resolveBasis {basis results : StaticBasis}
    (h : resolveBasis scope finish basis state = .ok results after)
    (hvalue : basis.valueAt? path name = some value) :
    ∃ resolved, value.type.instantiate (state.tree.typeEnv scope) state.store = .ok resolved ∧
      results.valueAt? path name = some { value with type := finish resolved } := by
  induction path generalizing basis results after with
  | nil =>
    obtain ⟨_, _, _, _, _⟩ := basis
    obtain ⟨values, middle, hvalues, h⟩ := bind_eq_ok_state h
    obtain ⟨structures, _, _, h⟩ := bind_eq_ok_state h
    obtain ⟨rfl, rfl⟩ := pure_eq_ok_state h
    exact get?_resolveValues hvalues hvalue
  | cons first rest ih =>
    rw [valueAt?, structureAt?, Option.bind_assoc, Option.bind_eq_some_iff] at hvalue
    obtain ⟨inner, hinner, hvalue⟩ := hvalue
    obtain ⟨_, _, _, _, _⟩ := basis
    obtain ⟨values, middle, hvalues, h⟩ := bind_eq_ok_state h
    have hmiddle : state = middle := by
      refine Advances.of_ok (R := Eq) (.mapM fun entry _ => ?_) hvalues
      exact .bind (advances_resolve _ _) fun _ => .pure _
    subst hmiddle
    obtain ⟨structures, _, hstructures, h⟩ := bind_eq_ok_state h
    obtain ⟨rfl, rfl⟩ := pure_eq_ok_state h
    obtain ⟨resolved, hresolved, hfound⟩ := get?_resolveStructures hstructures hinner
    obtain ⟨type, htype, hpublished⟩ := ih hresolved hvalue
    refine ⟨type, htype, ?_⟩
    rw [valueAt?, structureAt?, hfound]
    exact hpublished

end Elab

namespace ScopeTree

theorem findIn_eq_structureAt? (basis : StaticBasis) (first : String) (rest : List String) :
    findIn basis.structures (first :: rest) = basis.structureAt? (first :: rest) := by
  induction rest generalizing basis first with
  | nil =>
    rw [findIn, structureAt?]
    cases get? basis.structures first <;> rfl
  | cons second rest ih =>
    rw [findIn, structureAt?]
    · cases get? basis.structures first with
      | none => rfl
      | some inner => exact ih inner second
    · simp

theorem staticValue?_of_innermost {tree : ScopeTree} {number : Nat} {outer : Scope}
    (h : (tree.frame number).statics.valueAt? path name = some value) :
    tree.staticValue? (number :: outer) path name = some value := by
  cases path with
  | nil =>
    change get? _ name = some value at h
    simp only [staticValue?, find?, h]
  | cons first rest =>
    rw [valueAt?, Option.bind_eq_some_iff] at h
    obtain ⟨basis, hbasis, hvalue⟩ := h
    rw [structureAt?, Option.bind_eq_some_iff] at hbasis
    obtain ⟨inner, hinner, hbasis⟩ := hbasis
    have hstructure : tree.staticStructure? (number :: outer) (first :: rest) = some basis := by
      simp only [staticStructure?, find?, hinner]
      cases rest with
      | nil => exact hbasis
      | cons second rest => exact (findIn_eq_structureAt? inner second rest).trans hbasis
    rw [staticValue?, hstructure]
    · exact hvalue
    · simp

end ScopeTree

theorem Elab.settle_eq_ok {scope inner result : Scope} {changes : Changes} {state : ElabState}
    (h : settle scope inner changes state = .ok result after) :
    ∃ statics, resolveBasis inner Ty.defaultDomains changes.statics state = .ok statics state ∧
      after.store = state.store.freeOnly ∧
      ∃ number, result = number :: scope ∧ (after.tree.frame number).statics = statics := by
  unfold settle at h
  obtain ⟨statics, middle, hresolved, h⟩ := bind_eq_ok_state h
  have hmiddle : state = middle := (advances_resolveBasis _ _ _).of_ok hresolved
  subst hmiddle
  refine ⟨statics, hresolved, ?_⟩
  cases h
  refine ⟨rfl, state.tree.frames.size, rfl, ?_⟩
  -- The context is written into the new frame, which has the statics.
  refine (congrArg Frame.statics (ScopeTree.frame_modifyFrame
    (state.tree.withChanges scope { changes with statics }).2 _ _ _ ?_)).trans ?_
  · simp [ScopeTree.withChanges, ScopeTree.push]
  · rw [if_pos rfl, ScopeTree.withChanges, ScopeTree.frame_push]

theorem grows_elabGroup {base : Nat} (scope : Scope) (declaration : Decl) :
    Advances (ElabState.Grows base) (elabGroup scope declaration) := by
  refine grows_of_ensures (P := fun (_ _ : (any base scope).Stage) _ => True) ?_
  refine .bind (keeps_modify fun _ h _ => { h with }) fun _ _ _ _ => ?_
  refine (declares_nested covers_any).bind fun _ _ group hgroup => ?_
  refine (givesScope_elabComplete hgroup.covers
    (declaration.writtenWith_of_forall fun _ => trivial)).bind fun _ _ _ _ => ?_
  exact (keeps_look _).bind_pure fun _ _ _ _ => trivial

/-! ## Declarations one after the other -/

/-- A declaration that is elaborated at top level after a program, with the
states on the way. -/
structure TopLevelStep where
  origin : Scope
  start : ElabState
  program : Program
  scope : Scope
  state : ElabState
  declaration : Decl
  inner : Scope
  changes : Changes
  full : ElabState
  result : Scope
  after : ElabState
  ordered : Ordered start.store.bindings
  program_eq : elabProgram origin program start = .ok scope state
  group_eq : elabGroup scope declaration state = .ok (inner, changes) full
  topLevel_eq : elabTopLevel scope declaration state = .ok result after

namespace TopLevelStep

variable (step : TopLevelStep)

theorem settle_eq : Elab.settle step.scope step.inner step.changes step.full =
    .ok step.result step.after := by
  have h := step.topLevel_eq
  rw [elabTopLevel_eq] at h
  obtain ⟨found, full, hgroup, hsettle⟩ := bind_eq_ok_state h
  rw [step.group_eq] at hgroup
  cases hgroup
  exact hsettle

theorem store_eq : step.after.store = step.full.store.freeOnly := by
  obtain ⟨_, _, hstore, _⟩ := settle_eq_ok step.settle_eq
  exact hstore

theorem ordered_full : Ordered step.full.store.bindings := by
  have hprogram : ElabState.Elaborated 0 step.start step.state :=
    (grows_elabProgram _ _).of_ok step.program_eq (Nat.zero_le _)
  have hgroup : ElabState.Elaborated 0 step.state step.full :=
    (grows_elabGroup _ _).of_ok step.group_eq (Nat.zero_le _)
  exact (hprogram.store.trans hgroup.store).ordered step.ordered

/-- A value that the declaration declares is found under its name, with the
type that its own stands for and the defaults put in. -/
theorem published (hvalue : step.changes.statics.valueAt? path name = some value) : ∃ resolved,
      value.type.instantiate (step.full.tree.typeEnv step.inner) step.full.store = .ok resolved ∧
      step.after.tree.staticValue? step.result path name =
        some { value with type := resolved.defaultDomains } := by
  obtain ⟨statics, hresolved, _, number, hresult, hframe⟩ := settle_eq_ok step.settle_eq
  obtain ⟨resolved, htype, hpublished⟩ := valueAt?_resolveBasis hresolved hvalue
  refine ⟨resolved, htype, ?_⟩
  rw [hresult]
  rw [← hframe] at hpublished
  exact ScopeTree.staticValue?_of_innermost hpublished

/-- The step that the texts of a program and of a declaration after it
make in the session with the primitives. -/
def ofTexts? (first second : String) : Option TopLevelStep :=
  let read (source : String) (tree : ScopeTree) (scope : Scope) : Option Program :=
    ((tokensOf source).bind fun tokens =>
      readTokens tokens (tree.operators scope)).toOption
  let start : ElabState := { tree := Initial.tree }
  (read first start.tree .root).bind fun program =>
    match hprogram : elabProgram .root program start with
    | .error _ _ => none
    | .ok scope state =>
      (read second state.tree scope).bind fun later =>
        later.declarations.head?.bind fun declaration =>
          match hgroup : elabGroup scope declaration state,
              htopLevel : elabTopLevel scope declaration state with
          | .ok (inner, changes) full, .ok result after =>
            some ⟨.root, start, program, scope, state, declaration, inner,
              changes, full, result, after, List.Pairwise.nil, hprogram,
              hgroup, htopLevel⟩
          | _, _ => none

/-- What the type of a value from before the step stands for. -/
def seen? (store : Store) (name : String) : Option Ty :=
  (step.state.tree.staticValue? step.scope [] name).bind fun value =>
    (value.type.instantiate (step.full.tree.typeEnv step.inner) store).toOption

/-- For every type: finishing a declaration keeps what was learned about the
type exactly if each bound variable that it leads to is bound as a free
one. -/
theorem keeps_iff {env : TypeEnv} {type learned : Ty} (hsettled : step.full.store.Settled env type)
    (hlearned : type.instantiate env step.full.store = .ok learned) :
    ∃ kept, type.instantiate env step.after.store = .ok kept ∧
      (kept = learned ↔ step.full.store.LeadsFree type) := by
  have hresolves := (Store.resolves_iff hsettled learned).mpr hlearned
  obtain ⟨kept, hkept⟩ := Store.exists_resolves_freeOnly step.ordered_full hresolves
  rw [step.store_eq]
  refine ⟨kept, hkept.instantiate_eq, ?_⟩
  rw [← Store.resolves_freeOnly_iff step.ordered_full hresolves]
  constructor
  · rintro rfl
    exact hkept
  · exact hkept.unique

/-- The element type of a list of lists is kept: the variable for it was free
from the beginning. -/
theorem keeps_iff_nested : ∃ step value kept,
    ofTexts? "val x = ref nil" "val u = x := [[1]]" = some step ∧
    step.state.tree.staticValue? step.scope [] "x" = some value ∧
    step.full.store.LeadsFree value.type ∧
    value.type.instantiate (step.full.tree.typeEnv step.inner) step.full.store = .ok kept ∧
    value.type.instantiate (step.full.tree.typeEnv step.inner) step.after.store = .ok kept ∧
    kept.text = "int list list ref" := by
  obtain ⟨step, hstep, ⟨value, hvalue, htype, hbindings, hvars, hfree⟩, htext⟩ : ∃ step,
      ofTexts? "val x = ref nil" "val u = x := [[1]]" = some step ∧
      (∃ value, step.state.tree.staticValue? step.scope [] "x" = some value ∧
        value.type.isUnfolded (step.full.tree.typeEnv step.inner) = true ∧
        (∀ entry ∈ step.full.store.bindings,
          entry.2.type.isUnfolded (step.full.tree.typeEnv step.inner) = true) ∧
        value.type.term.vars = ["'*t1"] ∧ (step.full.store.get? "'*t1").all (fun binding =>
          binding.free && binding.type.term.vars.all (· ∈ ["'*t1"])) = true) ∧
      (step.seen? step.full.store "x").map Ty.text = some "int list list ref" := by
    decide +kernel
  rw [seen?, hvalue, Option.bind_some] at htext
  obtain ⟨learned, hlearned, htext⟩ := Option.map_eq_some_iff.mp htext
  replace hlearned := Ty.eq_ok_of_toOption hlearned
  have hleads : step.full.store.LeadsFree value.type :=
    .of_names ["'*t1"] (by simp [hvars]) (List.forall_mem_singleton.mpr hfree)
  obtain ⟨kept, hkept, hiff⟩ := step.keeps_iff (.of_bindings htype hbindings) hlearned
  rw [hiff.mpr hleads] at hkept
  exact ⟨step, value, learned, hstep, hvalue, hleads, hlearned, hkept, htext⟩

/-- A variable that was met later is not free, and with it goes what the
free one is bound to. -/
theorem keeps_not_nested : ∃ step, ofTexts? "val x = ref nil"
      "val g = fn y => (x := [[y]]; if y then 1 else 2)" = some step ∧
    (step.seen? step.full.store "x").map Ty.text = some "bool list list ref" ∧
    (step.seen? step.after.store "x").map Ty.text = some "'*t4 list list ref" := by
  decide +kernel

/-- A default is not kept: no type that the declaration publishes binds the
variables it had.  Another type mentions such a variable afterwards exactly
if it leads to it. -/
theorem default_open_iff {path : List String} {name : String} {value : StaticValue}
    (hvalue : step.changes.statics.valueAt? path name = some value) :
    ∃ resolved, value.type.instantiate (step.full.tree.typeEnv step.inner)
        step.full.store = .ok resolved ∧
      step.after.tree.staticValue? step.result path name =
        some { value with type := resolved.defaultDomains } ∧
      ∀ tyvar ∈ resolved.term.vars, step.after.store.get? tyvar = none ∧
        ∀ env other now, step.after.store.Settled env other →
          other.instantiate env step.after.store = .ok now →
          (tyvar ∈ now.term.vars ↔ step.after.store.Leads other tyvar) := by
  obtain ⟨resolved, hresolved, hpublished⟩ := step.published hvalue
  refine ⟨resolved, hresolved, hpublished, fun tyvar htyvar => ?_⟩
  have hunbound : step.after.store.get? tyvar = none := by
    rw [step.store_eq, Store.get?_freeOnly step.ordered_full,
      Ty.unbound_of_instantiateTo _ _ _ _ _ hresolved tyvar htyvar]
    rfl
  refine ⟨hunbound, fun env other now hsettled hnow => ?_⟩
  have hresolves := (Store.resolves_iff hsettled now).mpr hnow
  rw [hresolves.mem_vars_iff]
  exact and_iff_left hunbound

theorem default_open_sum : ∃ step value resolved,
    ofTexts? "val x = ref nil" "val f = fn y => y + y" = some step ∧
    step.changes.statics.valueAt? [] "f" = some value ∧
    value.type.instantiate (step.full.tree.typeEnv step.inner) step.full.store = .ok resolved ∧
    resolved.defaultDomains.text = "int -> int" ∧
    ∀ tyvar ∈ resolved.term.vars, step.after.store.get? tyvar = none := by
  obtain ⟨step, hstep, hsome, htext⟩ : ∃ step,
      ofTexts? "val x = ref nil" "val f = fn y => y + y" = some step ∧
      (step.changes.statics.valueAt? [] "f").isSome = true ∧
      (step.after.tree.staticValue? step.result [] "f").map (·.type.text) = some "int -> int" := by
    decide +kernel
  obtain ⟨value, hvalue⟩ := Option.isSome_iff_exists.mp hsome
  obtain ⟨resolved, hresolved, hpublished, hopen⟩ := step.default_open_iff hvalue
  refine ⟨step, value, resolved, hstep, hvalue, hresolved, ?_,
    fun tyvar htyvar => (hopen tyvar htyvar).1⟩
  rw [hpublished] at htext
  exact Option.some.inj htext

/-- The type of `x` has the variable that is taken for an integer in the type
of `g`, and afterwards it is taken for a real number. -/
theorem default_not_recorded : ∃ step later,
    ofTexts? "val x = ref nil" "val g = fn y => (x := [y]; y + y)" = some step ∧
    (step.changes.statics.valueAt? [] "g").map (·.type.text) = some "'*t1 -> '*t1" ∧
    (step.after.tree.staticValue? step.result [] "g").map (·.type.text) = some "int -> int" ∧
    (step.seen? step.after.store "x").map Ty.text = some "'*t1 list ref" ∧
    ofTexts? "val x = ref nil val g = fn y => (x := [y]; y + y)" "val h = x := [1.5]" = some later ∧
    (later.seen? later.after.store "x").map Ty.text = some "real list ref" := by
  simp only [exists_and_left]
  decide +kernel

/-- The type of `f` is general in the variable that the type of `x` has. -/
theorem generalized_element : ∃ step,
    ofTexts? "val x = ref nil" "val f = fn y => (x := [[y]]; y)" = some step ∧
    (step.seen? step.full.store "x").map Ty.text = some "'*t4 list list ref" ∧
    (step.after.tree.staticValue? step.result [] "f").map (·.type.text) =
      some "∀ '*t4 . '*t4 -> '*t4" := by
  decide +kernel

/-- The explicit variable `'a` becomes the type of `x`, an integer. -/
theorem explicit_instantiated : ∃ step,
    ofTexts? "" "val f = fn x => let val 'a g = fn (y : 'a) => [x, y] in x + 1 end" = some step ∧
    (step.after.tree.staticValue? step.result [] "f").map (·.type.text) = some "int -> int" := by
  decide +kernel

/-- The constraint on `r` does not reach the record of the selection. -/
theorem unresolved_selection :
    (match (interpret 9 {} "val f = fn r => (#a r, r : \x7ba:int,b:int\x7d)" .basic).1 with
    | .error (.elaboration ⟨.unresolved _, _⟩) => true
    | _ => false) = true := by
  decide +kernel

end TopLevelStep

end Sml
