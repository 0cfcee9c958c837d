import Sml.Dynamic.Value

/-!
# What evaluation knows about names

A dynamic basis holds the values behind the names of a structure or a scope.
An interface lists the names that a signature shows, and restricting a basis
to it keeps these alone.
-/

namespace Sml

structure DynamicValue where
  value : Value
  status : IdStatus := .value
  pending : Bool := false
deriving Inhabited

structure DynamicType where
  constructors : List String
  pending : Bool := false
deriving DecidableEq, Repr, Inhabited

structure Interface where
  types : List (String × List String) := []
  values : List (String × IdStatus) := []
  structures : List (String × Interface) := []

def Interface.override (first second : Interface) : Interface where
  types := Table.override first.types second.types
  values := Table.override first.values second.values
  structures := Table.override first.structures second.structures

structure DynamicFunctor where
  parameterName : String
  parameter : Interface
  body : StrExp
  scope : List Nat

structure DynamicBasis where
  types : List (String × DynamicType) := []
  values : List (String × DynamicValue) := []
  structures : List (String × DynamicBasis) := []
  signatures : List (String × Interface) := []
  functors : List (String × DynamicFunctor) := []

namespace DynamicBasis

def orElse (first second : DynamicBasis) : DynamicBasis where
  types := Table.orElse first.types second.types
  values := Table.orElse first.values second.values
  structures := Table.orElse first.structures second.structures
  signatures := Table.orElse first.signatures second.signatures
  functors := Table.orElse first.functors second.functors

def settled (basis : DynamicBasis) : DynamicBasis :=
  { basis with
    types := Table.filterValues (fun type => !type.pending) basis.types
    values := Table.filterValues (fun value => !value.pending) basis.values }

mutual

/-- Keeps what the interface shows.  A name has the status that the interface
gives it, so a constructor shown as a value is one no more. -/
def restrict : DynamicBasis → Interface → DynamicBasis
  | ⟨types, values, structures, _, _⟩, interface =>
    { types := interface.types.filterMap fun (name, shown) =>
        (Table.get? types name).map fun type =>
          (name, { constructors := type.constructors.filter (shown.contains ·) })
      values := interface.values.filterMap fun (name, status) =>
        (Table.get? values name).map fun value =>
          (name, { value := value.value, status })
      structures := restrictIn structures interface.structures }

def restrictIn : List (String × DynamicBasis) → List (String × Interface) →
    List (String × DynamicBasis)
  | [], _ => []
  | (name, basis) :: rest, shown =>
    match Table.get? shown name with
    | some interface => (name, restrict basis interface) :: restrictIn rest shown
    | none => restrictIn rest shown

end

def findIn : List (String × DynamicBasis) → List String → Option DynamicBasis
  | _, [] => none
  | structures, [name] => Table.get? structures name
  | structures, name :: rest =>
    match Table.get? structures name with
    | some basis => findIn basis.structures rest
    | none => none

end DynamicBasis

end Sml
