import Sml.Evaluation.Error
import Sml.Scope.Tree

/-!
# The primitive functions

Integers have sixty-four bits; a result that does not fit raises `Overflow`.
Division rounds down, and the remainder has the sign of the divisor.
-/

namespace Sml

/-! ## Integers -/

namespace Integer

def ofInt? (value : Int) : Option Int64 :=
  if -9223372036854775808 ≤ value ∧ value ≤ 9223372036854775807 then
    some (Int64.ofInt value)
  else none

def add? (left right : Int64) : Option Int64 :=
  ofInt? (left.toInt + right.toInt)

def sub? (left right : Int64) : Option Int64 :=
  ofInt? (left.toInt - right.toInt)

def mul? (left right : Int64) : Option Int64 :=
  ofInt? (left.toInt * right.toInt)

def neg? (value : Int64) : Option Int64 :=
  ofInt? (-value.toInt)

def abs? (value : Int64) : Option Int64 :=
  ofInt? value.toInt.natAbs

/-- The quotient rounded down, for a divisor that is not zero. -/
def div? (left right : Int64) : Option Int64 :=
  if left = Int64.minValue ∧ right = -1 then none
  else if left % right ≠ 0 ∧ (left < 0 ↔ 0 ≤ right) then
    some (left / right - 1)
  else some (left / right)

/-- What is left when the quotient is rounded down. -/
def mod (left right : Int64) : Int64 :=
  let remainder := if right = -1 then 0 else left % right
  if remainder ≠ 0 ∧ (remainder < 0 ↔ 0 ≤ right) then remainder + right
  else remainder

end Integer

/-! ## Reals -/

namespace Real

def roundHalfEven (value : Float) : Float :=
  let floor := value.floor
  let rest := value - floor
  if rest < 0.5 then floor
  else if 0.5 < rest then floor + 1.0
  else if (floor / 2.0).floor * 2.0 == floor then floor
  else floor + 1.0

def truncate (value : Float) : Float :=
  if value < 0.0 then value.ceil else value.floor

def toInteger? (value : Float) : Option Int64 :=
  if value.isNaN || value.isInf || value < -9223372036854775808.0 ||
      9223372036854775808.0 ≤ value then none
  else some value.toInt64

end Real

/-! ## Application -/

abbrev Eval := EStateM Interrupt ScopeTree

namespace Eval

variable {α : Type}

def fault (cause : EvalCause) (span : Span := {}) : Eval α :=
  throw (.fault { cause, span })

def raiseBasic (exn : BasicExn) : Eval α :=
  throw (.raised exn.value)

def orOverflow (result : Option Int64) : Eval Value :=
  match result with
  | some value => return .int value
  | none => raiseBasic .overflow

def allocate (value : Value) : Eval Value :=
  modifyGet fun tree =>
    let (address, tree) := tree.allocate value
    (.reference address, tree)

end Eval

namespace Primitive

open Eval

variable (self : Primitive)

def arithmetic (argument : Value)
    (integers : Int64 → Int64 → Option Int64)
    (reals : Float → Float → Float) : Eval Value :=
  match argument.asTuple? with
  | some [.int left, .int right] => orOverflow (integers left right)
  | some [.real left, .real right] => return .real (reals left right)
  | _ => fault (.badArgument self argument)

def integral (argument : Value) (f : Int64 → Int64 → Eval Value) :
    Eval Value :=
  match argument.asTuple? with
  | some [.int left, .int right] =>
    if right = 0 then raiseBasic .div else f left right
  | _ => fault (.badArgument self argument)

def ordering? (left right : Value) : Option Ordering :=
  match left, right with
  | .int left, .int right => some (compare left.toInt right.toInt)
  | .real left, .real right =>
    if left < right then some .lt
    else if right < left then some .gt
    else if left == right then some .eq
    else none
  | .string left, .string right => some (compare left right)
  | .char left, .char right => some (compare left.toNat right.toNat)
  | _, _ => none

def comparison (argument : Value) (holds : Ordering → Bool) :
    Eval Value :=
  match argument.asTuple? with
  | some [left, right] =>
    match ordering? left right with
    | some ordering => return .bool (holds ordering)
    | none => fault (.badArgument self argument)
  | _ => fault (.badArgument self argument)

def equality (argument : Value) (holds : Bool → Bool) : Eval Value :=
  match argument.asTuple? with
  | some [left, right] => return .bool (holds (left.equals right))
  | _ => fault (.badArgument self argument)

def conversion (argument : Value) (f : Float → Float) : Eval Value :=
  match argument with
  | .real value => orOverflow (Real.toInteger? (f value))
  | _ => fault (.badArgument self argument)

def implodeChars : List Value → List Char → Eval Value
  | [], chars => return .string (String.ofList chars.reverse)
  | .char value :: rest, chars => implodeChars rest (value :: chars)
  | other :: _, _ => fault (.badArgument .implode other)

def apply (argument : Value) : Eval Value :=
  match self, argument with
  | .add, _ => arithmetic self argument Integer.add? (· + ·)
  | .subtract, _ => arithmetic self argument Integer.sub? (· - ·)
  | .multiply, _ => arithmetic self argument Integer.mul? (· * ·)
  | .divide, _ =>
    match argument.asTuple? with
    | some [.real left, .real right] => return .real (left / right)
    | _ => fault (.badArgument self argument)
  | .div, _ => integral self argument fun left right =>
      orOverflow (Integer.div? left right)
  | .mod, _ => integral self argument fun left right =>
      return .int (Integer.mod left right)
  | .negate, .int value => orOverflow (Integer.neg? value)
  | .negate, .real value => return .real (-value)
  | .abs, .int value => orOverflow (Integer.abs? value)
  | .abs, .real value => return .real value.abs
  | .less, _ => comparison self argument (· == .lt)
  | .greater, _ => comparison self argument (· == .gt)
  | .lessEqual, _ => comparison self argument (· != .gt)
  | .greaterEqual, _ => comparison self argument (· != .lt)
  | .equal, _ => equality self argument id
  | .notEqual, _ => equality self argument not
  | .concat, _ =>
    match argument.asTuple? with
    | some [.string left, .string right] => return .string (left ++ right)
    | _ => fault (.badArgument self argument)
  | .size, .string value => return .int (Int64.ofNat value.length)
  | .print, .string value => do
    modify fun tree => tree.print value
    return .unit
  | .dereference, .reference address => do
    match (← get).load? address with
    | some value => return value
    | none => fault (.dangling address)
  | .assign, _ =>
    match argument.asTuple? with
    | some [.reference address, value] => do
      match (← get).store? address value with
      | some tree =>
        set tree
        return .unit
      | none => fault (.dangling address)
    | _ => fault (.badArgument self argument)
  | .toReal, .int value => return .real (Float.ofInt value.toInt)
  | .floor, _ => conversion self argument Float.floor
  | .ceil, _ => conversion self argument Float.ceil
  | .round, _ => conversion self argument Real.roundHalfEven
  | .trunc, _ => conversion self argument Real.truncate
  | .chr, .int value =>
    if 0 ≤ value.toInt ∧ value.toInt ≤ 255 then
      return .char (Char.ofNat value.toInt.toNat)
    else raiseBasic .chr
  | .ord, .char value => return .int (Int64.ofNat value.toNat)
  | .str, .char value => return .string value.toString
  | .explode, .string value => return .list (value.toList.map .char)
  | .implode, _ =>
    match argument.asList? with
    | some elements => implodeChars elements []
    | none => fault (.badArgument self argument)
  | .intToString, .int value => return .string (intText value)
  | .realToString, .real value => return .string (realText value)
  | _, _ => fault (.badArgument self argument)

end Primitive

end Sml
