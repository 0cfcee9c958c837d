import Sml.Decimal.Shortest
import Sml.Dynamic.Value

/-!
# The text of a value

References are written with what their cell holds.  A cell may lead back to
itself, so the number of cells passed on the way is bounded and there may be
no text.
-/

namespace Sml

/-- Whole numbers below `10^15` show one place after the point; other numbers
as many as they need, and never an exponent. -/
def realText (value : Float) : String :=
  if value.isNaN then "nan"
  else
    let sign := if value < 0.0 then "~" else ""
    if value.isInf then sign ++ "inf"
    else
      let number := Binary.ofBits value.toBits
      if number.isWhole && number.floor < Nat.pow 10 15 then
        sign ++ toString number.floor ++ ".0"
      else
        sign ++ number.shortest.positional

def intText (value : Int64) : String :=
  if value.toInt < 0 then "~" ++ toString value.toInt.natAbs
  else toString value.toInt

def escapeChars : List Char → List Char
  | [] => []
  | '"' :: rest => '\\' :: '"' :: escapeChars rest
  | '\\' :: rest => '\\' :: '\\' :: escapeChars rest
  | '\n' :: rest => '\\' :: 'n' :: escapeChars rest
  | '\t' :: rest => '\\' :: 't' :: escapeChars rest
  | c :: rest => c :: escapeChars rest

def escape (text : String) : String :=
  String.ofList (escapeChars text.toList)

namespace Value

def applied (nested : Bool) (name : String) (argument : Option String) :
    Option String :=
  argument.map fun argument =>
    let text := name ++ " " ++ argument
    if nested then "(" ++ text ++ ")" else text

def commas (texts : List (Option String)) : Option String :=
  (texts.mapM id).map (", ".intercalate ·)

section Write

-- How to write a cell.
variable (cell : (address : Nat) → (nested : Bool) → Option String)

mutual

/-- The text of a value, in parentheses where it is `nested` and has an
argument. -/
def writeWith : Value → (nested : Bool) → Option String
  | .int value, _ => some (intText value)
  | .real value, _ => some (realText value)
  | .string value, _ => some ("\"" ++ escape value ++ "\"")
  | .char value, _ => some ("#\"" ++ escape value.toString ++ "\"")
  | .record fields, _ =>
    let texts := writeFields fields
    if fields.isEmpty then some "()"
    else
      match (List.range fields.length).mapM fun index =>
          Table.get? texts (toString (index + 1)) with
      | some elements =>
        if 1 < elements.length then
          (commas elements).map fun text => "(" ++ text ++ ")"
        else braced texts
      | none => braced texts
  | .constructed name none, _ =>
    some (if name = "nil" then "[]" else name)
  | .constructed name (some argument), nested =>
    match if name = "::" then writeCons argument else none with
    | some elements => (commas elements).map fun text => "[" ++ text ++ "]"
    | none => applied nested name (writeWith argument true)
  | .exn name _ none, _ => some name
  | .exn name _ (some argument), nested =>
    applied nested name (writeWith argument true)
  | .reference address, nested => cell address nested
  | .constructor name, _ => some name
  | .exnConstructor name _, _ => some name
  | .makeRef, _ => some "ref"
  | .closure _ _, _ => some "fn"
  | .primitive _, _ => some "fn"
  | .selector _, _ => some "fn"
where
  braced (texts : List (String × Option String)) : Option String :=
    (commas (texts.map fun field =>
      field.2.map fun text => field.1 ++ " = " ++ text)).map fun text =>
        "\x7b " ++ text ++ " \x7d"

def writeFields : List (String × Value) → List (String × Option String)
  | [] => []
  | (label, value) :: rest =>
    (label, writeWith value false) :: writeFields rest

def writeList : Value → Option (List (Option String))
  | .constructed name none => if name = "nil" then some [] else none
  | .constructed name (some argument) =>
    if name = "::" then writeCons argument else none
  | _ => none

def writeCons : Value → Option (List (Option String))
  | .record fields =>
    match writeTail fields with
    | some tail => (writeHead fields).map (· :: tail)
    | none => none
  | _ => none

def writeHead : List (String × Value) → Option (Option String)
  | [] => none
  | (label, value) :: rest =>
    if label = "1" then some (writeWith value false) else writeHead rest

def writeTail : List (String × Value) → Option (List (Option String))
  | [] => none
  | (label, value) :: rest =>
    if label = "2" then writeList value else writeTail rest

end

end Write

/-- The text of a value alone, in which a reference does not show what it
holds. -/
def text (value : Value) : String :=
  (writeWith (fun _ _ => some "ref") value false).getD ""

def textTo (memory : Array Value) : (cells : Nat) → Value → (nested : Bool) →
    Option String
  | 0, value, nested => writeWith (fun _ _ => none) value nested
  | cells + 1, value, nested =>
    writeWith
      (fun address nested =>
        match memory[address]? with
        | some target =>
          applied nested "ref" (textTo memory cells target true)
        | none => some "ref")
      value nested

/-- The text of a value with what its references hold, unless they lead
back to themselves. -/
def text? (memory : Array Value) (value : Value) : Option String :=
  textTo memory (memory.size + 1) value false

end Value

end Sml
