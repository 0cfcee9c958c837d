import Sml.Static.Ty

/-!
# What elaboration knows about names

A static basis holds the types, values, structures, signatures and functors
that a structure or a scope declares.  A declared type is described by its
own type; for an abbreviation that is a function from the abbreviation's head
to what it stands for.
-/

namespace Sml

/-- How a name may be used in patterns, and whether it may be bound anew. -/
inductive IdStatus where
  | value
  | constructor
  | exception
deriving DecidableEq, Repr, Inhabited

def IdStatus.isConstructor : IdStatus → Bool
  | .value => false
  | .constructor | .exception => true

structure TypeInfo where
  type : Ty
  constructors : List String := []
  arity : Nat
  equality : Bool
  /-- Not to be seen once its declaration is done. -/
  pending : Bool := false
deriving Inhabited

structure Abbreviation where
  head : TyCon
  parameters : List Ty
  body : Ty

namespace TypeInfo

def ofAbbreviation (abbreviation : Abbreviation) : TypeInfo where
  type := .arrow (.con abbreviation.head abbreviation.parameters)
    abbreviation.body
  arity := abbreviation.parameters.length
  equality := true

def abbreviation? (info : TypeInfo) : Option Abbreviation :=
  match info.type with
  | .arrow (.con head parameters) body => some ⟨head, parameters, body⟩
  | _ => none

def isAbbreviation (info : TypeInfo) : Bool :=
  info.abbreviation?.isSome

def id (info : TypeInfo) : Nat :=
  match info.type with
  | .con head _ => head.id
  | .arrow (.con head _) _ => head.id
  | _ => 0

end TypeInfo

/-- What is assumed of a declared type, whether its name is in scope or
not. -/
structure Assumption where
  arity : Nat
  equality : Bool
deriving DecidableEq, Repr, Inhabited

structure StaticValue where
  type : Ty
  status : IdStatus := .value
  /-- A member of a recursive group that is being defined. -/
  pending : Bool := false
deriving Inhabited

mutual

structure StaticBasis where
  types : List (String × TypeInfo) := []
  values : List (String × StaticValue) := []
  structures : List (String × StaticBasis) := []
  signatures : List (String × StaticBasis) := []
  functors : List (String × StaticFunctor) := []

structure StaticFunctor where
  parameterName : String
  parameter : StaticBasis
  body : StaticBasis
  /-- The types that the body declares, new ones in every application. -/
  generated : List (String × Nat)

end

namespace StaticBasis

def orElse (first second : StaticBasis) : StaticBasis where
  types := Table.orElse first.types second.types
  values := Table.orElse first.values second.values
  structures := Table.orElse first.structures second.structures
  signatures := Table.orElse first.signatures second.signatures
  functors := Table.orElse first.functors second.functors

def override (first second : StaticBasis) : StaticBasis where
  types := Table.override first.types second.types
  values := Table.override first.values second.values
  structures := Table.override first.structures second.structures
  signatures := Table.override first.signatures second.signatures
  functors := Table.override first.functors second.functors

def settled (basis : StaticBasis) : StaticBasis :=
  { basis with
    types := Table.filterValues (fun info => !info.pending) basis.types
    values := Table.filterValues (fun value => !value.pending) basis.values }

mutual

def mapTypes (f : Ty → Ty) : StaticBasis → StaticBasis
  | ⟨types, values, structures, signatures, functors⟩ =>
    { types := Table.mapValues
        (fun info => { info with type := f info.type }) types
      values := Table.mapValues
        (fun value => { value with type := f value.type }) values
      structures := mapTypesIn f structures
      signatures
      functors }

def mapTypesIn (f : Ty → Ty) :
    List (String × StaticBasis) → List (String × StaticBasis)
  | [] => []
  | (name, basis) :: rest => (name, mapTypes f basis) :: mapTypesIn f rest

end

/-- Puts `name` in front of the path of each type that the basis declares,
so that the type is still found once the basis is a structure of the name. -/
def qualify (name : String) (basis : StaticBasis) : StaticBasis :=
  let declared (head : TyCon) : Bool :=
    match head.path with
    | [] => (Table.get? basis.types head.name).any fun info => info.id == head.id
    | first :: _ => Table.contains basis.structures first
  mapTypes
    (Ty.mapCons fun head arguments =>
      if declared head then
        .con { head with path := name :: head.path } arguments
      else .con head arguments)
    basis

def findIn : List (String × StaticBasis) → List String → Option StaticBasis
  | _, [] => none
  | structures, [name] => Table.get? structures name
  | structures, name :: rest =>
    match Table.get? structures name with
    | some basis => findIn basis.structures rest
    | none => none

end StaticBasis

end Sml
