import Sml.Lexical.Escape
import Sml.Lexical.Token
import Sml.Syntax.Fixity

/-!
# Where reading has got to

A cursor holds the tokens, the index of the next one, the operators in force
and the failure recorded furthest into the input.  Reading a phrase moves the
cursor; a failure leaves it where it stopped.  Failures at one index are
merged: the first is kept and the later ones add what they expected.
-/

namespace Sml

inductive Expectation where
  | word (text : String)
  | identifier
  | typeVariable
  | label
  | constant
  | type
  | pattern
  | expression
  | declaration
deriving DecidableEq, Repr

namespace Expectation

def text : Expectation → String
  | .word text => "'" ++ text ++ "'"
  | .identifier => "identifier"
  | .typeVariable => "type variable"
  | .label => "record label"
  | .constant => "constant"
  | .type => "type"
  | .pattern => "pattern"
  | .expression => "expression"
  | .declaration => "declaration"

end Expectation

inductive Found where
  | token (token : Token)
  | endOfInput
  | operator (name : String)
deriving DecidableEq, Repr

namespace Found

def text : Found → String
  | .token read => read.describe
  | .endOfInput => "end of input"
  | .operator name => "infix operator '" ++ name ++ "'"

end Found

inductive ReadFault where
  | unexpectedToken
  | unexpectedEnd
  | integerRange
  | charLength
  | escape (fault : EscapeFault)
  | typeSequence
  | appliedPattern
  | bareOperator
  | missingOperand (operator : String)
  | malformedInfix
  | malformedClause
  | clauseNames (first other : String)
  | clauseArity (name : String)
  | withtype
  | precedence
  | sharing
  /-- More phrases are nested than there are tokens. -/
  | nesting
deriving DecidableEq, Repr

namespace ReadFault

def message : ReadFault → String
  | .unexpectedToken => "unexpected token"
  | .unexpectedEnd => "unexpected end of input"
  | .integerRange => "integer constant out of range"
  | .charLength => "character constant must have length 1"
  | .escape fault => fault.message
  | .typeSequence => "type sequence must be applied to a type constructor"
  | .appliedPattern => "only constructors can be applied in patterns"
  | .bareOperator => "infix operator used without 'op'"
  | .missingOperand operator =>
    "missing operand for infix operator '" ++ operator ++ "'"
  | .malformedInfix => "malformed infix expression"
  | .malformedClause => "malformed function clause"
  | .clauseNames first other =>
    "clauses do not all define the same function, found '" ++ first ++
      "' and '" ++ other ++ "'"
  | .clauseArity name =>
    "clauses of '" ++ name ++ "' do not all have the same number of arguments"
  | .withtype => "'withtype' is not supported"
  | .precedence => "fixity precedence must be a single digit"
  | .sharing => "sharing specifications are not supported"
  | .nesting => "phrases are nested too deeply"

end ReadFault

structure ReadError where
  fault : ReadFault
  expected : List Expectation := []
  found : Option Found := none
  span : Option Span := none
  /-- The index of the token where the failure was recorded. -/
  index : Nat := 0
deriving DecidableEq, Repr

namespace ReadError

def summary (error : ReadError) : String :=
  "Parsing failed: " ++ error.fault.message ++
    (if error.expected.isEmpty then ""
      else ", expected " ++
        " or ".intercalate (error.expected.map Expectation.text)) ++
    (match error.found with
      | some found => ", found " ++ found.text
      | none => "")

/-- The failure with the lines it points at.  There is no such text if the
span lies outside its source. -/
def message? (error : ReadError) : Option String :=
  match error.span with
  | some span =>
    if span.source.isEmpty then some error.summary
    else span.render? error.summary
  | none => some error.summary

end ReadError

structure Cursor where
  tokens : Array Token
  index : Nat := 0
  operators : OperatorTable := []
  furthest : Option ReadError := none

namespace Cursor

def peek? (cursor : Cursor) : Option Token := cursor.tokens[cursor.index]?

def peekAt? (cursor : Cursor) (offset : Nat) : Option Token :=
  cursor.tokens[cursor.index + offset]?

def remaining (cursor : Cursor) : Nat := cursor.tokens.size - cursor.index

def previousSpan (cursor : Cursor) : Span :=
  match cursor.index with
  | 0 => {}
  | index + 1 => (cursor.tokens[index]?.map Token.span).getD {}

def currentSpan (cursor : Cursor) : Span :=
  (cursor.peek?.map Token.span).getD cursor.previousSpan

def advance (cursor : Cursor) : Cursor :=
  if cursor.index < cursor.tokens.size then
    { cursor with index := cursor.index + 1 }
  else cursor

def errorHere (cursor : Cursor) (fault : ReadFault)
    (expected : List Expectation) : ReadError :=
  match cursor.peek? with
  | some token =>
    ⟨fault, expected, some (.token token), some token.span, cursor.index⟩
  | none => ⟨fault, expected, some .endOfInput, none, cursor.index⟩

def mergeExpected (first : List Expectation) :
    List Expectation → List Expectation
  | [] => first
  | expectation :: rest =>
    mergeExpected
      (if first.contains expectation then first else first ++ [expectation])
      rest

/-- Keeps a failure raised at the current index if none was raised
further on. -/
def record (cursor : Cursor) (error : ReadError) : Cursor :=
  let error := { error with index := cursor.index }
  match cursor.furthest with
  | none => { cursor with furthest := some error }
  | some furthest =>
    if error.index < furthest.index then cursor
    else if furthest.index = error.index then
      { cursor with
        furthest := some { furthest with
          expected := mergeExpected furthest.expected error.expected } }
    else { cursor with furthest := some error }

end Cursor

abbrev Reader := EStateM ReadError Cursor

namespace Reader

variable {α β : Type}

def view (f : Cursor → α) : Reader α := return f (← get)

def peek? : Reader (Option Token) := view Cursor.peek?

def currentSpan : Reader Span := view Cursor.currentSpan

def spanFrom (start : Span) : Reader Span :=
  view fun cursor => start.merge cursor.previousSpan

def advance : Reader Unit := modify Cursor.advance

def moveTo (index : Nat) : Reader Unit :=
  modify fun cursor => { cursor with index }

def restoreOperators (operators : OperatorTable) : Reader Unit :=
  modify fun cursor => { cursor with operators }

def fail (error : ReadError) : Reader α := do
  modify (·.record error)
  throw error

def failHere (fault : ReadFault) (expected : List Expectation) :
    Reader α := do
  fail ((← get).errorHere fault expected)

def unexpected (expected : Expectation) : Reader α := do
  match ← peek? with
  | some token =>
    fail ⟨.unexpectedToken, [expected], some (.token token),
      some token.span, 0⟩
  | none => fail ⟨.unexpectedEnd, [expected], none, none, 0⟩

def attempt (reader : Reader α) : Reader (Except ReadError α) := fun cursor =>
  match reader cursor with
  | .ok value cursor => .ok (.ok value) cursor
  | .error error cursor => .ok (.error error) cursor

/-- Reads a phrase and puts the operators back that were in force before,
whether it succeeds or fails. -/
def withOperators (reader : Reader α) : Reader α := do
  let operators ← view Cursor.operators
  let result ← attempt reader
  restoreOperators operators
  match result with
  | .ok value => return value
  | .error error => throw error

def orBack (reader : Reader (Option α)) : Reader (Option α) := do
  let index ← view Cursor.index
  let result ← reader
  if result.isNone then moveTo index
  return result

def iterate (step : α → Reader (Option α)) : Nat → α → Reader α
  | 0, _ => throw ⟨.nesting, [], none, none, 0⟩
  | bound + 1, value => do
    match ← step value with
    | some next => iterate step bound next
    | none => return value

/-- Repeats a step that reads at least one token, until it gives nothing. -/
def whileSome (first : α) (step : α → Reader (Option α)) : Reader α := do
  iterate step ((← view Cursor.remaining) + 1) first

def many (item : Reader (Option α)) : Reader (List α) := do
  let items ← whileSome [] fun items => do
    return (← item).map (· :: items)
  return items.reverse

end Reader

end Sml
