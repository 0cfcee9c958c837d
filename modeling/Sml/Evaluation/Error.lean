import Sml.Dynamic.ValueText
import Sml.Elaboration.Error

/-!
# What stops evaluation

An exception of the program travels to its nearest handler.  A fault is none
of the program's exceptions and ends it.  Evaluation that has used up its
steps has neither a value nor a fault.
-/

namespace Sml

inductive EvalCause where
  | undefined (entity : Entity) (name : String)
  | cannotRaise (value : Value)
  | notBoolean (value : Value)
  | labelMissing (label : String) (record : Value)
  | notRecord (label : String) (value : Value)
  | notFunction (value : Value)
  | badArgument (function : Primitive) (argument : Value)
  | dangling (address : Nat)
  | recursivePattern
  | recursiveValue (name : String)
  | noClauses (name : String)

def EvalCause.text : EvalCause → String
  | .undefined entity name =>
    "undefined " ++ entity.text ++ " \"" ++ name ++ "\""
  | .cannotRaise value => "cannot raise " ++ value.text
  | .notBoolean value => "expected a boolean, found " ++ value.text
  | .labelMissing label record =>
    "record " ++ record.text ++ " has no label " ++ label
  | .notRecord label value =>
    "cannot select #" ++ label ++ " from " ++ value.text
  | .notFunction value => value.text ++ " is not a function"
  | .badArgument function argument =>
    "invalid argument " ++ argument.text ++ " for " ++ function.name
  | .dangling address => "dangling reference " ++ toString address
  | .recursivePattern => "val rec binds a pattern that is not a name"
  | .recursiveValue name => "val rec " ++ name ++ " is not bound to fn"
  | .noClauses name => "fun " ++ name ++ " has no clauses"

structure EvalError where
  cause : EvalCause
  span : Span := {}

def EvalError.message (error : EvalError) : String :=
  error.span.annotate ("Evaluation failed: " ++ error.cause.text)

inductive Interrupt where
  | raised (exn : Value)
  | fault (error : EvalError)
  | outOfSteps

end Sml
