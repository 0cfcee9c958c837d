/-!
# Names and constants
-/

namespace Sml

/-- A name with the path of structures it is looked up in, as `List.map`. -/
structure LongName where
  path : List String := []
  name : String
deriving DecidableEq, Repr, Inhabited

namespace LongName

def simple (name : String) : LongName := ⟨[], name⟩

def isSimple (name : LongName) : Bool := name.path.isEmpty

def parts (name : LongName) : List String := name.path ++ [name.name]

def text (name : LongName) : String :=
  ".".intercalate name.parts

def ofText (text : String) : LongName :=
  let parts := splitAtPoints [] text.toList
  ⟨parts.dropLast, parts.getLastD ""⟩
where
  splitAtPoints : List Char → List Char → List String
    | part, [] => [String.ofList part.reverse]
    | part, '.' :: rest => String.ofList part.reverse :: splitAtPoints [] rest
    | part, c :: rest => splitAtPoints (c :: part) rest

end LongName

inductive Constant where
  | int (value : Int64)
  | real (value : Float)
  | string (value : String)
  | char (value : Char)
deriving Repr, Inhabited

end Sml
