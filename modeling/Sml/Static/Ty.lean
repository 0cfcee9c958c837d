import Sml.Table

/-!
# Types

A type variable carries the finite domain of types it may stand for (an empty
domain restricts nothing) and whether it is free, that is, whether the value
restriction has left it open.  Names that begin with two primes only stand
for types that admit equality.  A scheme is a type under binders, the
outermost first.

Tuples and records with labels `1`, …, `n` are the same types; `simplify`
writes them all as records.
-/

namespace Sml

/-- A declared type by its name and the number that tells it from others of
the name.  The path is where its definition is found; it is no part of what
the type is. -/
structure TyCon where
  name : String
  path : List String := []
  /-- Whether an ascription hides what the type is. -/
  hidden : Bool := false
  id : Nat := 0
deriving DecidableEq, Repr

namespace TyCon

def fullName (con : TyCon) : String :=
  ".".intercalate (con.path ++ [con.name])

def same (first second : TyCon) : Bool :=
  first.name == second.name && first.id == second.id

end TyCon

inductive Ty where
  | any
  | var (name : String) (domain : List Ty) (free : Bool)
  | bind (name : String) (domain : List Ty) (free : Bool) (body : Ty)
  /-- Not `complete` when there may be more fields. -/
  | record (fields : List (String × Ty)) (complete : Bool)
  | arrow (parameter result : Ty)
  | con (head : TyCon) (arguments : List Ty)
  | tuple (elements : List Ty)
deriving Inhabited

namespace Ty

def plain (name : String) : Ty := .var name [] false

def constant (name : String) : Ty := .con { name } []

def unit : Ty := .record [] true

def int : Ty := .constant "int"

def real : Ty := .constant "real"

def string : Ty := .constant "string"

def char : Ty := .constant "char"

def bool : Ty := .constant "bool"

def exn : Ty := .constant "exn"

def list (element : Ty) : Ty := .con { name := "list" } [element]

def ref (element : Ty) : Ty := .con { name := "ref" } [element]

/-! ## Folding over a type -/

structure Fold (β : Type) where
  any : β
  var : String → List Ty → Bool → β
  bind : String → List Ty → Bool → Ty → β → β
  record : List (String × β) → Bool → β
  arrow : β → β → β
  con : TyCon → List β → β
  tuple : List β → β

variable {β : Type}

mutual

def fold (f : Fold β) : Ty → β
  | .any => f.any
  | .var name domain free => f.var name domain free
  | .bind name domain free body =>
    f.bind name domain free body (fold f body)
  | .record fields complete => f.record (foldFields f fields) complete
  | .arrow parameter result => f.arrow (fold f parameter) (fold f result)
  | .con head arguments => f.con head (foldList f arguments)
  | .tuple elements => f.tuple (foldList f elements)

def foldList (f : Fold β) : List Ty → List β
  | [] => []
  | type :: rest => fold f type :: foldList f rest

def foldFields (f : Fold β) : List (String × Ty) → List (String × β)
  | [] => []
  | (label, type) :: rest => (label, fold f type) :: foldFields f rest

end

def rebuild : Fold Ty where
  any := .any
  var := .var
  bind name domain free _ body := .bind name domain free body
  record := .record
  arrow := .arrow
  con := .con
  tuple := .tuple

/-! ## Renaming and substitution -/

/-- Renames variables, bound ones and their binders too. -/
def rename (names : Table String) : Ty → Ty :=
  let new (name : String) := (Table.get? names name).getD name
  fold { rebuild with
    var := fun name domain free => .var (new name) domain free
    bind := fun name domain free _ body => .bind (new name) domain free body }

/-- Puts types for variables.  The binder of such a variable goes away. -/
def substitute (types : Table Ty) : Ty → Ty :=
  fold { rebuild with
    var := fun name domain free =>
      (Table.get? types name).getD (.var name domain free)
    bind := fun name domain free _ body =>
      if Table.contains types name then body
      else .bind name domain free body }

def mapCons (f : TyCon → List Ty → Ty) : Ty → Ty :=
  fold { rebuild with con := f }

/-- The elements labelled `first`, `first + 1`, … -/
def numbered {α : Type} (first : Nat) : List α → List (String × α)
  | [] => []
  | element :: rest => (toString first, element) :: numbered (first + 1) rest

/-- Tuples as records labelled from `1`. -/
def simplify : Ty → Ty :=
  fold { rebuild with
    tuple := fun elements => .record (Table.ofList (numbered 1 elements)) true }

def makeFree : Ty → Ty :=
  fold { rebuild with
    var := fun name domain _ => .var name domain true
    bind := fun name domain _ _ body => .bind name domain true body }

/-! ## Binders -/

def quantify (names : List String) (type : Ty) : Ty :=
  names.foldr (fun name body => .bind name [] false body) type

structure Binder where
  name : String
  domain : List Ty
  free : Bool

def unquantify : Ty → List Binder × Ty
  | .bind name domain free body =>
    let (binders, inner) := unquantify body
    (⟨name, domain, free⟩ :: binders, inner)
  | type => ([], type)

/-! ## Equality and domains -/

mutual

/-- Whether two types without tuples are equal.  A variable is known by its
name and a declared type by its name and number; `any` equals everything. -/
def sameRecords : Ty → Ty → Bool
  | .any, _ => true
  | .var name _ _, .var other _ _ => name == other
  | .bind name _ _ body, .bind other _ _ otherBody =>
    name == other && sameRecords body otherBody
  | .record fields complete, .record others otherComplete =>
    complete == otherComplete && sameFields fields others
  | .arrow parameter result, .arrow otherParameter otherResult =>
    sameRecords parameter otherParameter && sameRecords result otherResult
  | .con head arguments, .con other otherArguments =>
    head.same other && sameList arguments otherArguments
  | _, .any => true
  | _, _ => false

def sameList : List Ty → List Ty → Bool
  | [], [] => true
  | type :: rest, other :: others => sameRecords type other && sameList rest others
  | _, _ => false

def sameFields : List (String × Ty) → List (String × Ty) → Bool
  | [], [] => true
  | (label, type) :: rest, (otherLabel, other) :: others =>
    label == otherLabel && sameRecords type other && sameFields rest others
  | _, _ => false

end

def same (first second : Ty) : Bool :=
  sameRecords first.simplify second.simplify

/-- What both domains allow.  An empty domain allows everything. -/
def mergeDomain (first second : List Ty) : List Ty :=
  if first.isEmpty then second
  else if second.isEmpty then first
  else first.filter fun candidate => second.any fun other => other.same candidate

/-! ## Variables -/

def addVariable (name : String) (domain : List Ty)
    (found : Table (List Ty)) : Table (List Ty) :=
  match Table.get? found name with
  | some earlier => Table.insert found name (mergeDomain earlier domain)
  | none => Table.insert found name domain

def collectVariables (freeOnly : Bool) :
    Fold (Table (List Ty) → Table (List Ty)) where
  any := id
  var name domain free :=
    if freeOnly && !free then id else addVariable name domain
  bind name _ free _ body := fun found =>
    let inner := body []
    let inner := if free then inner else Table.erase inner name
    inner.foldl (fun found entry => addVariable entry.1 entry.2 found) found
  record fields _ := fun found =>
    fields.foldl (fun found field => field.2 found) found
  arrow parameter result := fun found => result (parameter found)
  con _ arguments := fun found =>
    arguments.foldl (fun found argument => argument found) found
  tuple elements := fun found =>
    elements.foldl (fun found element => element found) found

/-- The variables of a type with what all their domains allow, or only those
marked free.  A bound variable does not count unless its binder is free. -/
def variableDomains (freeOnly : Bool) (type : Ty) : Table (List Ty) :=
  fold (collectVariables freeOnly) type []

def addName (name : String) (names : List String) : List String :=
  if names.contains name then names else name :: names

def collectNames : Fold (List String → List String) where
  any := id
  var name _ _ := addName name
  bind name _ _ _ body := fun names => body (addName name names)
  record fields _ := fun names =>
    fields.foldl (fun names field => field.2 names) names
  arrow parameter result := fun names => result (parameter names)
  con _ arguments := fun names =>
    arguments.foldl (fun names argument => argument names) names
  tuple elements := fun names =>
    elements.foldl (fun names element => element names) names

def variableNames (type : Ty) : List String :=
  (fold collectNames type []).reverse

def isEqualityName (name : String) : Bool :=
  name.startsWith "''"

def equalityName (name : String) : String :=
  "'" ++ name

def asEqualityType (type : Ty) : Ty :=
  let names := type.variableNames.filter fun name => !isEqualityName name
  rename (Table.ofList (names.map fun name => (name, equalityName name))) type

/-! ## Defaults and flexible records -/

mutual

/-- How many binders a type has, those in the domains of binders included. -/
def binderCount : Ty → Nat
  | .any => 0
  | .var _ _ _ => 0
  | .bind _ domain _ body => binderCounts domain + binderCount body + 1
  | .record fields _ => fieldBinderCounts fields
  | .arrow parameter result => binderCount parameter + binderCount result
  | .con _ arguments => binderCounts arguments
  | .tuple elements => binderCounts elements

def binderCounts : List Ty → Nat
  | [] => 0
  | type :: rest => binderCount type + binderCounts rest

def fieldBinderCounts : List (String × Ty) → Nat
  | [] => 0
  | (_, type) :: rest => binderCount type + fieldBinderCounts rest

end

/-- Replaces each variable that has a domain by the first type of it, at
most `bound` binders deep. -/
def defaultWithin : (bound : Nat) → Ty → Ty
  | 0, type => type
  | bound + 1, type =>
    fold { rebuild with
      var := fun name domain free =>
        match domain with
        | default :: _ => default
        | [] => .var name domain free
      bind := fun name domain free body rebuilt =>
        match domain with
        | default :: _ =>
          defaultWithin bound (substitute [(name, default)] body)
        | [] => .bind name domain free rebuilt } type

def defaultDomains (type : Ty) : Ty :=
  defaultWithin (type.binderCount + 1) type

def isResolved : Ty → Bool :=
  fold {
    any := true
    var := fun _ _ _ => true
    bind := fun _ _ _ _ body => body
    record := fun fields complete => complete && fields.all (·.2)
    arrow := fun parameter result => parameter && result
    con := fun _ arguments => arguments.all id
    tuple := fun elements => elements.all id }

def isHidden : Ty → Bool
  | .con head _ => head.hidden
  | _ => false

def size : Ty → Nat :=
  fold {
    any := 1
    var := fun _ _ _ => 1
    bind := fun _ _ _ _ body => body + 1
    record := fun fields _ => (fields.map (·.2)).foldr (· + ·) 0 + 1
    arrow := fun parameter result => parameter + result + 1
    con := fun _ arguments => arguments.foldr (· + ·) 0 + 1
    tuple := fun elements => elements.foldr (· + ·) 0 + 1 }

end Ty

end Sml
