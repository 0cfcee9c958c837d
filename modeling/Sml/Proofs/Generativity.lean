import Sml.Proofs.InputGrowth

/-!
# Functor application is generative

An application of a functor gives new numbers to the types that stand in the
type tables of the functor's body.  A type that was given its number while the
body was elaborated is shared by two applications exactly when both mention it
and no type table of the body has it: when it was declared under `local` or
`let`, or another type of its name has taken its place.
-/

namespace Sml

open List StaticBasis Ty Function

/-! ## The declared types that a basis mentions -/

/-- The declared types in a type.  What an overloaded variable may stand for
is no part of it. -/
def Ty.identities : Ty → List (String × Nat) := fold {
    any := []
    var := fun _ _ _ => []
    bind := fun _ _ _ _ body => body
    record := fun fields _ => (fields.map (·.2)).flatten
    arrow := fun parameter result => parameter ++ result
    con := fun head arguments => (head.name, head.id) :: arguments.flatten
    tuple := fun elements => elements.flatten }

namespace StaticBasis

mutual

def allTypes : StaticBasis → List Ty
  | ⟨types, values, structures, _, _⟩ =>
    types.map (·.2.type) ++ values.map (·.2.type) ++ allTypesIn structures

def allTypesIn : List (String × StaticBasis) → List Ty
  | [] => []
  | (_, basis) :: rest => allTypes basis ++ allTypesIn rest

end

def identities (basis : StaticBasis) : List (String × Nat) := basis.allTypes.flatMap Ty.identities

mutual

/-- The types that the type tables of a basis and of its structures have,
each under the name it has there. -/
def tabled : StaticBasis → List (String × Nat)
  | ⟨types, _, structures, _, _⟩ =>
    types.map (fun entry => (entry.1, entry.2.id)) ++ tabledIn structures

def tabledIn : List (String × StaticBasis) → List (String × Nat)
  | [] => []
  | (_, basis) :: rest => tabled basis ++ tabledIn rest

end

theorem allTypesIn_eq_flatMap (structures : List (String × StaticBasis)) :
    allTypesIn structures = structures.flatMap fun entry => entry.2.allTypes := by
  induction structures with
  | nil => rfl
  | cons entry rest ih => rw [allTypesIn, ih, flatMap_cons]

theorem tabledIn_eq_flatMap (structures : List (String × StaticBasis)) :
    tabledIn structures = structures.flatMap fun entry => entry.2.tabled := by
  induction structures with
  | nil => rfl
  | cons entry rest ih => rw [tabledIn, ih, flatMap_cons]

theorem generatedInSince_eq_flatMap (before : Table Nat)
    (structures : List (String × StaticBasis)) :
    generatedInSince before structures =
      structures.flatMap fun entry => entry.2.generatedSince before := by
  induction structures with
  | nil => rfl
  | cons entry rest ih => rw [generatedInSince, ih, flatMap_cons]

theorem allTypes_mapTypes (f : Ty → Ty) (basis : StaticBasis) :
    (basis.mapTypes f).allTypes = basis.allTypes.map f := by
  induction basis using induct with
  | step basis ih =>
    obtain ⟨types, values, structures, signatures, functors⟩ := basis
    have hstructures : (structures.map fun entry => (entry.2.mapTypes f).allTypes) =
          structures.map fun entry => entry.2.allTypes.map f :=
      map_congr_left ih
    simp only [mapTypes, allTypes, allTypesIn_eq_flatMap, mapTypesIn_eq_map,
      Table.mapValues, map_append, map_map, map_flatMap,
      flatMap_map, comp_def]
    rw [flatMap_def, hstructures, ← flatMap_def]

theorem mem_generatedSince (before : Table Nat) (basis : StaticBasis) (identity : String × Nat) :
    identity ∈ basis.generatedSince before ↔ identity ∈ basis.tabled ∧
        (Table.get? before identity.1).getD 0 ≤ identity.2 := by
  induction basis using induct with
  | step basis ih =>
    obtain ⟨types, values, structures, signatures, functors⟩ := basis
    have htypes : identity ∈ (types.filterMap fun entry =>
          if (Table.get? before entry.1).getD 0 ≤ entry.2.id then
            some (entry.1, entry.2.id) else none) ↔
        identity ∈ types.map (fun entry => (entry.1, entry.2.id)) ∧
          (Table.get? before identity.1).getD 0 ≤ identity.2 := by
      simp only [mem_filterMap, mem_map, Option.ite_none_right_eq_some, Option.some.injEq]
      constructor
      · rintro ⟨entry, hmem, hle, rfl⟩
        exact ⟨⟨entry, hmem, rfl⟩, hle⟩
      · rintro ⟨⟨entry, hmem, rfl⟩, hle⟩
        exact ⟨entry, hmem, hle, rfl⟩
    simp only [generatedSince, tabled, generatedInSince_eq_flatMap,
      tabledIn_eq_flatMap, mem_append, htypes, mem_flatMap,
      or_and_right]
    refine or_congr Iff.rfl ⟨?_, ?_⟩
    · rintro ⟨entry, hentry, hmem⟩
      have hinner := (ih entry hentry).mp hmem
      exact ⟨⟨entry, hentry, hinner.1⟩, hinner.2⟩
    · rintro ⟨⟨entry, hentry, hmem⟩, hle⟩
      exact ⟨entry, hentry, (ih entry hentry).mpr ⟨hmem, hle⟩⟩

end StaticBasis

/-! ## Renumbering -/

namespace Renumbering

def renew (numbers : Renumbering) (identity : String × Nat) : String × Nat :=
  (identity.1, (numbers.lookup identity).getD identity.2)

theorem identities_apply (numbers : Renumbering) (type : Ty) :
    (numbers.apply type).identities = type.identities.map numbers.renew := by
  induction type with
  | any | var => rfl
  | bind name domain free body ih => exact ih
  | record fields complete ih =>
    have hfields := map_congr_left ih
    simp only [apply, mapCons, Ty.identities, rebuild, Ty.fold,
      Ty.foldFields_eq_map, Table.mapValues, map_map, map_flatten,
      comp_def] at hfields ⊢
    rw [hfields]
  | arrow parameter result ihParameter ihResult =>
    rw [show (Ty.arrow parameter result).identities =
      parameter.identities ++ result.identities from rfl, map_append,
      ← ihParameter, ← ihResult]
    rfl
  | con head arguments ih =>
    have harguments := map_congr_left ih
    simp only [apply, mapCons, Ty.identities, rebuild, Ty.fold,
      Ty.foldList_eq_map, map_map, map_flatten, map_cons,
      comp_def, renew] at harguments ⊢
    cases lookup (head.name, head.id) numbers with
    | none =>
      simp only [Ty.fold, Ty.foldList_eq_map, map_map, comp_def, Option.getD_none]
      rw [harguments]
    | some id =>
      simp only [Ty.fold, Ty.foldList_eq_map, map_map, comp_def, Option.getD_some]
      rw [harguments]
  | tuple elements ih =>
    have helements := map_congr_left ih
    simp only [apply, mapCons, Ty.identities, rebuild, Ty.fold,
      Ty.foldList_eq_map, map_map, map_flatten,
      comp_def] at helements ⊢
    rw [helements]

end Renumbering

/-- The number of the type was given on the way from one tree to the other. -/
def ScopeTree.Gives (before after : ScopeTree) (identity : String × Nat) :
    Prop :=
  before.peekTypeId identity.1 ≤ identity.2 ∧ identity.2 < after.peekTypeId identity.1

instance (before after : ScopeTree) (identity : String × Nat) :
    Decidable (before.Gives after identity) :=
  inferInstanceAs (Decidable (_ ∧ _))

variable {identity : String × Nat}

namespace Elab

/-- The types that are listed get numbers from `bound` on if the counters
stand there, and the others keep what they have. -/
theorem lookup_renumber {types : List (String × Nat)} {earlier numbers : Renumbering}
    {state after : ElabState} (h : types.foldlM renumberNext earlier state = .ok numbers after)
    {bound : Nat} (hbound : bound ≤ state.tree.peekTypeId identity.1) :
    (identity ∉ types → numbers.lookup identity = earlier.lookup identity) ∧
    ((∃ id, earlier.lookup identity = some id ∧ bound ≤ id) ∨ identity ∈ types →
      ∃ id, numbers.lookup identity = some id ∧ bound ≤ id) := by
  induction types generalizing earlier state with
  | nil =>
    obtain ⟨rfl, rfl⟩ := pure_eq_ok_state h
    simp
  | cons first rest ih =>
    have hstep : bound ≤ (state.tree.newTypeId first.1).2.peekTypeId identity.1 :=
      hbound.trans ((state.tree.numbers_newTypeId first.1).typeIds _)
    obtain ⟨next, middle, hnext, hrest⟩ := bind_eq_ok_state h
    cases hnext
    obtain ⟨hother, hlisted⟩ := ih hrest hstep
    by_cases hfirst : identity = first
    · subst hfirst
      refine ⟨by simp, fun _ => hlisted (.inl ⟨_, lookup_cons_self, ?_⟩)⟩
      exact hbound
    · rw [lookup_cons, beq_false_of_ne hfirst] at hother hlisted
      simp only [mem_cons, hfirst, false_or]
      exact ⟨hother, hlisted⟩

end Elab

/-! ## Applications of a functor -/

/-- A structure expression that applies the functor and elaborates, at a time
when all the numbers that `since` counts have been given. -/
structure FunctorUse (functor : StaticFunctor) (since : ScopeTree) where
  height : Nat
  scope : Scope
  name : String
  argument : StrExp
  span : Span
  state : ElabState
  basis : StaticBasis
  after : ElabState
  later : ∀ name, since.peekTypeId name ≤ state.tree.peekTypeId name
  found : state.tree.staticFunctor? scope name = some functor
  elaborated : elabStr (height + 1) scope (.apply name argument span) state = .ok basis after

namespace FunctorUse

open Elab

variable {functor : StaticFunctor} {since : ScopeTree}

/-- The functor's body with what the argument has in place of the parameter's
types. -/
def realised (use : FunctorUse functor since) : StaticBasis :=
  match realiseArgument ⟨elabExpr use.height, elabDecl use.height, elabStr use.height⟩ use.scope
      functor use.argument use.span use.state with
  | .ok realisation _ => functor.body.mapTypes realisation.apply
  | .error _ _ => functor.body

theorem basis_eq (use : FunctorUse functor since) : ∃ (numbers : Renumbering) (matched : ElabState),
      (∀ name, since.peekTypeId name ≤ matched.tree.peekTypeId name) ∧
      renumber functor.generated matched = .ok numbers use.after ∧
      use.basis.allTypes = use.realised.allTypes.map numbers.apply := by
  have helaborated := use.elaborated
  rw [elabStr] at helaborated
  change applyFunctor _ _ _ _ _ _ = _ at helaborated
  unfold applyFunctor at helaborated
  obtain ⟨found, state, hlook, hnext⟩ := bind_eq_ok_state helaborated
  obtain ⟨rfl, rfl⟩ : some functor = found ∧ use.state = state := by
    rw [← use.found]
    exact pure_eq_ok_state hlook
  obtain ⟨realisation, matched, hrealise, hnext⟩ := bind_eq_ok_state hnext
  obtain ⟨numbers, after, hnumbers, hnext⟩ := bind_eq_ok_state hnext
  obtain ⟨hbasis, rfl⟩ := pure_eq_ok_state hnext
  have hgrows : ElabState.Elaborated 0 use.state matched :=
    (grows_realiseArgument _ _ _ _).of_ok hrealise (Nat.zero_le _)
  refine ⟨numbers, matched, fun name => ?_, hnumbers, ?_⟩
  · exact (use.later name).trans (hgrows.numbers.typeIds name)
  · rw [← hbasis, realised, hrealise]
    simp only [StaticBasis.allTypes_mapTypes, map_map]
    rfl

/-- Of the types that had numbers before, an application has those of the
realised body that are not given new ones. -/
theorem mem_identities (use : FunctorUse functor since)
    (hold : identity.2 < since.peekTypeId identity.1) :
    identity ∈ use.basis.identities ↔
      identity ∈ use.realised.identities ∧ identity ∉ functor.generated := by
  obtain ⟨numbers, matched, hlater, hnumbers, hbasis⟩ := use.basis_eq
  have hmap : use.basis.identities = use.realised.identities.map numbers.renew := by
    simp only [StaticBasis.identities, hbasis, flatMap_map,
      map_flatMap, Renumbering.identities_apply]
  rw [hmap, mem_map]
  constructor
  · rintro ⟨original, hmem, hrenew⟩
    obtain ⟨hother, hlisted⟩ := lookup_renumber hnumbers (hlater original.1)
    by_cases hgenerated : original ∈ functor.generated
    · -- A new number is above all that were given before.
      obtain ⟨id, hlookup, hle⟩ := hlisted (.inr hgenerated)
      have hfresh : identity = (original.1, id) := by
        rw [← hrenew, Renumbering.renew, hlookup, Option.getD_some]
      rw [hfresh] at hold
      exact absurd hle (Nat.not_le.mpr hold)
    · have hsame : identity = original := by
        rw [← hrenew, Renumbering.renew, hother hgenerated, lookup_nil, Option.getD_none]
      exact hsame ▸ ⟨hmem, hgenerated⟩
  · rintro ⟨hmem, hgenerated⟩
    refine ⟨identity, hmem, ?_⟩
    rw [Renumbering.renew, (lookup_renumber hnumbers (hlater identity.1)).1 hgenerated,
      lookup_nil, Option.getD_none]

end FunctorUse

theorem Elab.mem_generated {inner : Inner} {scope : Scope} {binding : FunctorBind StrExp}
    {parameter : StaticBasis} {functor : StaticFunctor} {state declared : ElabState}
    (h : functorOf inner scope binding parameter state = .ok functor declared)
    (hnew : state.tree.peekTypeId identity.1 ≤ identity.2) :
    identity ∈ functor.generated ↔ identity ∈ functor.body.tabled := by
  unfold functorOf at h
  obtain ⟨before, state', hlook, hnext⟩ := bind_eq_ok_state h
  obtain ⟨rfl, rfl⟩ := pure_eq_ok_state hlook
  obtain ⟨within, _, -, hnext⟩ := bind_eq_ok_state hnext
  obtain ⟨-, _, -, hnext⟩ := bind_eq_ok_state hnext
  obtain ⟨body, _, -, hnext⟩ := bind_eq_ok_state hnext
  obtain ⟨rfl, -⟩ := pure_eq_ok_state hnext
  rw [mem_generatedSince]
  exact and_iff_left hnew

/-- Two applications of a functor share no type that was given its number
while the functor's body was elaborated, exactly when all such types that both
mention stand in the type tables of the body. -/
theorem functorUses_share_nothing_iff {inner : Inner} {scope : Scope} {binding : FunctorBind StrExp}
    {parameter : StaticBasis} {functor : StaticFunctor} {state declared : ElabState}
    (hfunctor : Elab.functorOf inner scope binding parameter state = .ok functor declared)
    (first second : FunctorUse functor declared.tree) :
    (∀ identity, state.tree.Gives declared.tree identity → identity ∈ first.basis.identities →
      identity ∉ second.basis.identities) ↔
    (∀ identity, state.tree.Gives declared.tree identity → identity ∈ first.realised.identities →
      identity ∈ second.realised.identities →
      identity ∈ functor.body.tabled) := by
  refine forall_congr' fun identity => forall_congr' fun hgives => ?_
  rw [first.mem_identities hgives.2, second.mem_identities hgives.2,
    Elab.mem_generated hfunctor hgives.1]
  tauto

namespace FunctorUse

variable {functor : StaticFunctor} {since : ScopeTree}

theorem later_after (use : FunctorUse functor since) (name : String) :
    since.peekTypeId name ≤ use.after.tree.peekTypeId name := by
  have hgrows : ElabState.Elaborated 0 use.state use.after :=
    (grows_elabStr _ _).of_ok use.elaborated (Nat.zero_le _)
  exact (use.later name).trans (hgrows.numbers.typeIds name)

/-- The application of a functor that is alone in scope to a structure with
nothing in it, once the numbers that `tree` counts have been given. -/
def alone? (functor : StaticFunctor) {since tree : ScopeTree}
    (h : ∀ name, since.peekTypeId name ≤ tree.peekTypeId name) :
    Option (FunctorUse functor since) :=
  let state : ElabState := { tree := {
    frames := #[{ statics.functors := [("F", functor)] }]
    typeIds := tree.typeIds } }
  match helaborated : elabStr 3 .root (.apply "F" (.body (.seq [] {}) {}) {}) state with
  | .ok basis after =>
    some ⟨2, .root, "F", .body (.seq [] {}) {}, {}, state, basis, after, h, rfl, helaborated⟩
  | .error _ _ => none

def twice? (functor : StaticFunctor) (since : ScopeTree) :
    Option (FunctorUse functor since × FunctorUse functor since) := do
  let first ← alone? functor (fun name => Nat.le_refl (since.peekTypeId name))
  let second ← alone? functor first.later_after
  return (first, second)

end FunctorUse

/-- `functor F (X : sig end) = struct datatype t = A end`, in a session in
which nothing is declared. -/
def datatypeFunctor : EStateM.Result ElabError ElabState StaticFunctor :=
  Elab.functorOf ⟨elabExpr 2, elabDecl 2, elabStr 2⟩ .root ⟨"F", "X", .sig [] {},
      .body (.datatypes [⟨[], "t", [⟨"A", none, {}⟩], {}⟩] {}) {}, {}⟩
    {} { tree := {} }

theorem functorUses_share_nothing_datatype :
    ∃ functor declared, ∃ first second : FunctorUse functor declared.tree,
      datatypeFunctor = .ok functor declared ∧
      ("t", 0) ∈ first.realised.identities ∧
      ("t", 1) ∈ first.basis.identities ∧
      ("t", 2) ∈ second.basis.identities ∧
      ∀ identity, ScopeTree.Gives {} declared.tree identity → identity ∈ first.basis.identities →
        identity ∉ second.basis.identities := by
  have hfacts : (match datatypeFunctor with
      | .error _ _ => false
      | .ok functor declared =>
        (FunctorUse.twice? functor declared.tree).any fun (first, second) =>
          ("t", 0) ∈ first.realised.identities ∧
          ("t", 1) ∈ first.basis.identities ∧
          ("t", 2) ∈ second.basis.identities ∧
          ∀ identity ∈ first.realised.identities, identity ∈ functor.body.tabled) = true := by
    decide +kernel
  cases hfunctor : datatypeFunctor with
  | error error state => simp [hfunctor] at hfacts
  | ok functor declared =>
    simp only [hfunctor] at hfacts
    cases huses : FunctorUse.twice? functor declared.tree with
    | none => simp [huses] at hfacts
    | some uses =>
      obtain ⟨first, second⟩ := uses
      simp only [huses, Option.any_some, decide_eq_true_eq] at hfacts
      obtain ⟨hrealised, hfirst, hsecond, htabled⟩ := hfacts
      refine ⟨functor, declared, first, second, rfl, hrealised, hfirst, hsecond, ?_⟩
      exact (functorUses_share_nothing_iff hfunctor first second).mpr
        fun identity _ hidentity _ => htabled identity hidentity

/-- A datatype under `local` keeps its number in every application. -/
theorem functorUses_share_local :
    let declared := Session.basic.load 100 ("functor F (X : sig end) = " ++
      "struct local datatype t = A in val x = A end end")
    let applied := declared.load 100 "structure P = F (struct end) structure Q = F (struct end)"
    Session.basic.tree.Gives declared.tree ("t", 0) ∧
    (applied.tree.staticStructure? applied.scope ["P"]).map
      StaticBasis.identities = some [("t", 0)] ∧
    (applied.tree.staticStructure? applied.scope ["Q"]).map
      StaticBasis.identities = some [("t", 0)] := by
  decide +kernel

end Sml
