/-!
# Finite maps from names

A table lists its entries in strictly increasing order of name, so two tables
with the same entries are the same list and walking one visits the names in
order.  Every operation below keeps that order.
-/

namespace Sml

/-- A finite map from names, in increasing order of name. -/
abbrev Table (α : Type) := List (String × α)

namespace Table

variable {α β : Type}

def empty : Table α := []

def get? : Table α → String → Option α
  | [], _ => none
  | (key, value) :: rest, name =>
    if key = name then some value else get? rest name

def contains (table : Table α) (name : String) : Bool :=
  (get? table name).isSome

def insert : Table α → String → α → Table α
  | [], name, value => [(name, value)]
  | (key, old) :: rest, name, value =>
    if name = key then (name, value) :: rest
    else if name < key then (name, value) :: (key, old) :: rest
    else (key, old) :: insert rest name value

def erase (table : Table α) (name : String) : Table α :=
  table.filter fun entry => entry.1 != name

def keys (table : Table α) : List String :=
  table.map (·.1)

def values (table : Table α) : List α :=
  table.map (·.2)

def mapValues (f : α → β) (table : Table α) : Table β :=
  table.map fun entry => (entry.1, f entry.2)

def filterValues (keep : α → Bool) (table : Table α) : Table α :=
  table.filter fun entry => keep entry.2

/-- Later entries of the list win. -/
def ofList (entries : List (String × α)) : Table α :=
  entries.foldl (fun table entry => insert table entry.1 entry.2) []

/-- Both tables together; on a common name the first one wins. -/
def orElse (first second : Table α) : Table α :=
  second.foldl
    (fun table entry =>
      if contains table entry.1 then table
      else insert table entry.1 entry.2)
    first

/-- Both tables together; on a common name the second one wins. -/
def override (first second : Table α) : Table α :=
  second.foldl (fun table entry => insert table entry.1 entry.2) first

end Table

end Sml
