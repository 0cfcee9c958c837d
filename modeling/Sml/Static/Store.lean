import Sml.Static.Ty

/-!
# What is known about type variables

A store binds variables to types and records the domains that variables got
when they were merged with others.  A bound variable is looked up when it is
needed; types that mention it stay as they are.  The supply gives names that
no source text can contain.
-/

namespace Sml

structure Binding where
  type : Ty
  free : Bool

structure Store where
  bindings : Table Binding := []
  domains : Table (List Ty) := []

namespace Store

def get? (store : Store) (name : String) : Option Binding :=
  Table.get? store.bindings name

def isBound (store : Store) (name : String) : Bool :=
  (store.get? name).isSome

def bind (store : Store) (name : String) (type : Ty) (free : Bool) : Store :=
  { store with bindings := Table.insert store.bindings name ⟨type, free⟩ }

def domain? (store : Store) (name : String) : Option (List Ty) :=
  Table.get? store.domains name

def constrain (store : Store) (name : String) (domain : List Ty) : Store :=
  { store with domains := Table.insert store.domains name domain }

def size (store : Store) : Nat := store.bindings.length

/-- Follows bindings of variables to bound variables, at most `bound` steps
and never to a name seen already. -/
def follow (store : Store) : (bound : Nat) → List String → String → String
  | 0, _, name => name
  | bound + 1, seen, name =>
    if seen.contains name then name
    else
      match store.get? name with
      | some ⟨.var next _ _, _⟩ =>
        if store.isBound next then store.follow bound (name :: seen) next
        else name
      | _ => name

def chainEnd (store : Store) (name : String) : String :=
  store.follow (store.size + 1) [] name

/-- Only the bindings of free variables, which outlive the declaration that
made them. -/
def freeOnly (store : Store) : Store :=
  { store with bindings := Table.filterValues Binding.free store.bindings }

def weight (store : Store) : Nat :=
  store.bindings.foldr (fun entry total => entry.2.type.size + total) 0

end Store

structure NameSupply where
  next : Nat := 0
deriving DecidableEq, Repr

namespace NameSupply

def fresh (supply : NameSupply) : String × NameSupply :=
  ("'*t" ++ toString supply.next, ⟨supply.next + 1⟩)

def freshLike (supply : NameSupply) (name : String) : String × NameSupply :=
  let (fresh, supply) := supply.fresh
  (if Ty.isEqualityName name then Ty.equalityName fresh else fresh, supply)

end NameSupply

end Sml
