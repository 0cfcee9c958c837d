import Sml.Table

/-!
# Fixity

An operator table says which names stand between their operands, how
strongly they bind and to which side they group.
-/

namespace Sml

inductive Fixity where
  | nonfix
  | left (precedence : Nat)
  | right (precedence : Nat)
deriving DecidableEq, Repr, Inhabited

namespace Fixity

def isOperator : Fixity → Bool
  | .nonfix => false
  | _ => true

def precedence : Fixity → Nat
  | .nonfix => 0
  | .left precedence | .right precedence => precedence

def groupsRight : Fixity → Bool
  | .right _ => true
  | _ => false

/-- Whether an operator already read takes its operands before the operator
`next` that follows it: it binds more strongly, or equally strongly and
`next` does not group to the right. -/
def takesBefore (earlier next : Fixity) : Bool :=
  next.precedence < earlier.precedence ||
    (earlier.precedence == next.precedence && !next.groupsRight)

end Fixity

abbrev OperatorTable := Table Fixity

namespace OperatorTable

def operator? (table : OperatorTable) (name : String) : Option Fixity :=
  (Table.get? table name).filter Fixity.isOperator

def changes (earlier table : OperatorTable) : OperatorTable :=
  table.filter fun entry =>
    Table.get? earlier entry.1 != some entry.2

def standard : OperatorTable :=
  .ofList <|
    ["*", "/", "div", "mod"].map (·, .left 7) ++
    ["+", "-", "^"].map (·, .left 6) ++
    ["::", "@"].map (·, .right 5) ++
    ["=", "<>", "<", ">", "<=", ">="].map (·, .left 4) ++
    [":=", "o"].map (·, .left 3) ++
    [("before", .left 0)]

end OperatorTable

inductive GroupFault (ω : Type) where
  /-- There are not two operands for an operator. -/
  | missingOperand (operator : ω)
  /-- Nothing is left at the end, or more than one phrase. -/
  | malformed
deriving DecidableEq, Repr

section Grouping

variable {α ω : Type} (fixity : ω → Fixity) (combine : ω → α → α → α)

def joinLatest (operator : ω) : List α → Except (GroupFault ω) (List α)
  | right :: left :: earlier => .ok (combine operator left right :: earlier)
  | _ => .error (.missingOperand operator)

/-- Joins operands by the waiting operators, the latest first, as long as they
take their operands before `next`. -/
def joinBefore (next : ω) :
    List ω → List α → Except (GroupFault ω) (List ω × List α)
  | [], operands => .ok ([], operands)
  | operator :: waiting, operands =>
    if (fixity operator).takesBefore (fixity next) then do
      joinBefore next waiting (← joinLatest combine operator operands)
    else .ok (operator :: waiting, operands)

def joinAll : List ω → List α → Except (GroupFault ω) (List α)
  | [], operands => .ok operands
  | operator :: waiting, operands => do
    joinAll waiting (← joinLatest combine operator operands)

def groupFrom : List ω → List α → List (ω × α) → Except (GroupFault ω) α
  | waiting, operands, [] => do
    match ← joinAll combine waiting operands with
    | [result] => .ok result
    | _ => .error .malformed
  | waiting, operands, (operator, operand) :: rest => do
    let (waiting, operands) ←
      joinBefore fixity combine operator waiting operands
    groupFrom (operator :: waiting) (operand :: operands) rest

/-- Groups operands by the operators between them.  Operators of equal
precedence group to the left unless the later one groups to the right. -/
def groupOperators (operands : List α) (operators : List ω) :
    Except (GroupFault ω) α :=
  groupFrom fixity combine [] (operands.take 1)
    (operators.zip (operands.drop 1))

end Grouping

end Sml
