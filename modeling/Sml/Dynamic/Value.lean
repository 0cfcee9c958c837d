import Sml.Static.Basis
import Sml.Syntax.Phrase

/-!
# Values

Records and tuples are one kind of value, a tuple being a record with labels
`1`, …, `n`.  A closure keeps the numbers of the frames of the scope it was
made in, a reference the number of its cell; values hold no scopes or cells
themselves.
-/

namespace Sml

inductive Primitive where
  | add | subtract | multiply | divide | div | mod
  | negate | abs
  | less | greater | lessEqual | greaterEqual | equal | notEqual
  | concat | size | print
  | dereference | assign
  | toReal | floor | ceil | round | trunc
  | chr | ord | str | explode | implode
  | intToString | realToString
deriving DecidableEq, Repr

def Primitive.name : Primitive → String
  | .add => "+"
  | .subtract => "-"
  | .multiply => "*"
  | .divide => "/"
  | .div => "div"
  | .mod => "mod"
  | .negate => "~"
  | .abs => "abs"
  | .less => "<"
  | .greater => ">"
  | .lessEqual => "<="
  | .greaterEqual => ">="
  | .equal => "="
  | .notEqual => "<>"
  | .concat => "^"
  | .size => "size"
  | .print => "print"
  | .dereference => "!"
  | .assign => ":="
  | .toReal => "real"
  | .floor => "floor"
  | .ceil => "ceil"
  | .round => "round"
  | .trunc => "trunc"
  | .chr => "chr"
  | .ord => "ord"
  | .str => "str"
  | .explode => "explode"
  | .implode => "implode"
  | .intToString => "intToString"
  | .realToString => "realToString"

inductive Value where
  | int (value : Int64)
  | real (value : Float)
  | string (value : String)
  | char (value : Char)
  | record (fields : List (String × Value))
  | constructed (name : String) (argument : Option Value)
  | constructor (name : String)
  | makeRef
  | exnConstructor (name : String) (id : Nat)
  | exn (name : String) (id : Nat) (argument : Option Value)
  | closure (rules : Match Expr) (scope : List Nat)
  | primitive (primitive : Primitive)
  | selector (label : String)
  | reference (address : Nat)

namespace Value

instance : Inhabited Value := ⟨.record []⟩

def unit : Value := .record []

def bool (value : Bool) : Value :=
  .constructed (if value then "true" else "false") none

def tuple (elements : List Value) : Value :=
  .record (Table.ofList (Ty.numbered 1 elements))

def nil : Value := .constructed "nil" none

def cons (head tail : Value) : Value :=
  .constructed "::" (some (.tuple [head, tail]))

def list (elements : List Value) : Value :=
  elements.foldr cons nil

def asBool? : Value → Option Bool
  | .constructed "true" none => some true
  | .constructed "false" none => some false
  | _ => none

/-- The fields labelled `1`, …, `n`, if these are all there are. -/
def asTuple? : Value → Option (List Value)
  | .record fields =>
    (List.range fields.length).mapM fun index =>
      Table.get? fields (toString (index + 1))
  | _ => none

mutual

def asList? : Value → Option (List Value)
  | .constructed name none => if name = "nil" then some [] else none
  | .constructed name (some (.record fields)) =>
    if name = "::" then
      match Table.get? fields "1", tailOf? fields with
      | some head, some tail => some (head :: tail)
      | _, _ => none
    else none
  | _ => none

def tailOf? : List (String × Value) → Option (List Value)
  | [] => none
  | (label, value) :: rest =>
    if label = "2" then asList? value else tailOf? rest

end

/-- The elements of a list that has exactly `count` of them.  No more of the
list is looked at than that takes. -/
def elements? : (count : Nat) → Value → Option (List Value)
  | 0, .constructed name none => if name = "nil" then some [] else none
  | count + 1, .constructed name (some (.record fields)) =>
    if name = "::" then
      match Table.get? fields "1", Table.get? fields "2" with
      | some head, some tail => (elements? count tail).map (head :: ·)
      | _, _ => none
    else none
  | _, _ => none

mutual

/-- Equality of values.  References are equal if they are one cell, and
functions are equal to nothing. -/
def equals : Value → Value → Bool
  | .int left, .int right => left == right
  | .real left, .real right => left == right
  | .string left, .string right => left == right
  | .char left, .char right => left == right
  | .reference left, .reference right => left == right
  | .record fields, .record others =>
    fields.length == others.length && equalFields fields others
  | .constructed name argument, .constructed other otherArgument =>
    name == other && equalOptions argument otherArgument
  | .exn _ id argument, .exn _ other otherArgument =>
    id == other && equalOptions argument otherArgument
  | _, _ => false

def equalOptions : Option Value → Option Value → Bool
  | none, none => true
  | some value, some other => equals value other
  | _, _ => false

def equalFields : List (String × Value) → List (String × Value) → Bool
  | [], _ => true
  | (label, value) :: rest, others =>
    (match Table.get? others label with
      | some other => equals value other
      | none => false) &&
    equalFields rest others

end

def same : Value → Value → Bool
  | .constructor name, .constructor other => name == other
  | .exnConstructor _ id, .exnConstructor _ other => id == other
  | .makeRef, .makeRef => true
  | .selector label, .selector other => label == other
  | value, other => equals value other

end Value

/-! ## The exceptions every program starts with -/

inductive BasicExn where
  | match | bind | div | overflow | fail | empty | option | subscript
  | chr | size | domain
deriving DecidableEq, Repr

namespace BasicExn

def all : List BasicExn :=
  [.match, .bind, .div, .overflow, .fail, .empty, .option, .subscript,
    .chr, .size, .domain]

def name : BasicExn → String
  | .match => "Match"
  | .bind => "Bind"
  | .div => "Div"
  | .overflow => "Overflow"
  | .fail => "Fail"
  | .empty => "Empty"
  | .option => "Option"
  | .subscript => "Subscript"
  | .chr => "Chr"
  | .size => "Size"
  | .domain => "Domain"

def id : BasicExn → Nat
  | .match => 0
  | .bind => 1
  | .div => 2
  | .overflow => 3
  | .fail => 4
  | .empty => 5
  | .option => 6
  | .subscript => 7
  | .chr => 8
  | .size => 9
  | .domain => 10

def value (exn : BasicExn) : Value :=
  .exn exn.name exn.id none

end BasicExn

end Sml
