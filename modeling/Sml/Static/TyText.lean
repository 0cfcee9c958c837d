import Sml.Static.Ty

/-!
# The text of a type

A type is written with as few parentheses as its reading allows.  For display
its variables are renamed `'a`, `'b`, … in order of appearance, and free ones
`'~A`, `'~B`, …
-/

namespace Sml.Ty

/-! ## Canonical names -/

def columnLetters : (bound : Nat) → Nat → List Char
  | 0, _ => []
  | bound + 1, index =>
    let letter := Char.ofNat ('a'.toNat + index % 26)
    if index < 26 then [letter]
    else letter :: columnLetters bound (index / 26 - 1)

/-- `a`, …, `z`, `aa`, `ab`, … -/
def columnName (index : Nat) : String :=
  String.ofList (columnLetters (index + 1) index).reverse

def shownName (free equality : Bool) (number : Nat) : String :=
  if free then "'~" ++ (columnName number).toUpper
  else (if equality then "''" else "'") ++ columnName number

/-- New names for variables in order of appearance, some of which are free,
where so many free ones are named already. -/
def shownNames (isFree : String → Bool) (names : List String)
    (nextFree : Nat) : Table String :=
  let (free, bound) := names.partition isFree
  Table.ofList (names.map fun name =>
    (name, shownName (isFree name) (isEqualityName name)
      (if isFree name then nextFree + free.idxOf name
        else bound.idxOf name)))

/-- The type with its variables renamed for display, and the next number
for a free one.  When `strict`, domains are defaulted first. -/
def normalize (type : Ty) (nextFree : Nat) (strict : Bool) : Ty × Nat :=
  let type := if strict then type.defaultDomains else type
  let isFree := Table.contains (type.variableDomains true)
  let names := type.variableNames
  (type.rename (shownNames isFree names nextFree),
    nextFree + names.countP isFree)

/-! ## Writing -/

/-- The elements of a complete record labelled exactly `1`, …, `n`, where `n`
is at least two. -/
def tupleElements? {α : Type} (fields : List (String × α)) (complete : Bool) :
    Option (List α) :=
  if complete && 2 ≤ fields.length then
    (List.range fields.length).mapM fun index =>
      Table.get? fields (toString (index + 1))
  else none

inductive Place where
  | loose
  | parameter
  | argument
deriving DecidableEq

def parenthesize (needed : Bool) (text : String) : String :=
  if needed then "(" ++ text ++ ")" else text

structure Written where
  quantified : List String
  text : Place → String

namespace Written

def plain (text : Place → String) : Written := ⟨[], text⟩

def inPlace (written : Written) (place : Place) : String :=
  if written.quantified.isEmpty then written.text place
  else "∀ " ++ " ".intercalate written.quantified ++ " . " ++
    written.text .loose

end Written

def writeRecord (fields : List (String × Written)) (complete : Bool)
    (place : Place) : String :=
  if complete && fields.isEmpty then "unit"
  else
    match tupleElements? fields complete with
    | some elements =>
      parenthesize (place == .argument)
        (" * ".intercalate (elements.map (·.inPlace .argument)))
    | none =>
      "\x7b" ++
        ", ".intercalate (fields.map fun field =>
          field.1 ++ ": " ++ field.2.inPlace .loose) ++
        (if complete then "" else ", ...") ++ "\x7d"

def writeCon (con : TyCon) (arguments : List Written) : String :=
  match arguments with
  | [] => con.fullName
  | [argument] => argument.inPlace .argument ++ " " ++ con.fullName
  | arguments =>
    "(" ++ ", ".intercalate (arguments.map (·.inPlace .loose)) ++ ") " ++
      con.fullName

def write : Fold Written where
  any := .plain fun _ => "_"
  var name _ _ := .plain fun _ => name
  bind name _ free _ body :=
    { body with
      quantified :=
        if free then body.quantified else name :: body.quantified }
  record fields complete := .plain (writeRecord fields complete)
  arrow parameter result := .plain fun place =>
    parenthesize (place != .loose)
      (parameter.inPlace .parameter ++ " -> " ++ result.inPlace .loose)
  con con arguments := .plain fun _ => writeCon con arguments
  tuple elements :=
    .plain (writeRecord (Table.ofList (numbered 1 elements)) true)

/-- The type as it is, binders included. -/
def text (type : Ty) : String :=
  (fold write type).inPlace .loose

/-- The type for display, binders left out. -/
def pretty (type : Ty) : String :=
  ((type.unquantify.2.normalize 0 false).1).text

end Sml.Ty
