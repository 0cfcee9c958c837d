import Sml.Source.Span
import Sml.Static.Fault
import Sml.Syntax.Name

/-!
# Errors of elaboration

An error is a cause and the place where it showed.  The texts of all causes
stand here.
-/

namespace Sml

inductive Entity where
  | identifier
  | constructor
  | type
  | struct
  | signature
  | functor
  | exception
deriving DecidableEq, Repr

def Entity.text : Entity → String
  | .identifier => "identifier"
  | .constructor => "constructor"
  | .type => "type"
  | .struct => "structure"
  | .signature => "signature"
  | .functor => "functor"
  | .exception => "exception"

inductive ClashContext where
  | listElements
  | application
  | typedExpression
  | connective
  | condition
  | branches
  | caseRules
  | raised
  | handler
  | ruleArgument
  | ruleResult
  | constructorArgument (name : LongName)
  | typedPattern
  | overloading
  | valueBinding
  | recursion (name : String)
deriving DecidableEq, Repr

def ClashContext.text : ClashContext → String
  | .listElements => "list elements disagree"
  | .application => "type clash in application"
  | .typedExpression => "expression does not match its annotation"
  | .connective => "operand of a boolean connective"
  | .condition => "condition must be a boolean"
  | .branches => "branches of if disagree"
  | .caseRules => "case rules do not match the scrutinee"
  | .raised => "raised value must be an exception"
  | .handler => "handler does not match the handled expression"
  | .ruleArgument => "match rules disagree on their argument"
  | .ruleResult => "match rules disagree on their result"
  | .constructorArgument name =>
    "argument of constructor " ++ name.text ++ " does not match"
  | .typedPattern => "pattern does not match its annotation"
  | .overloading => "cannot resolve overloading"
  | .valueBinding => "pattern and expression of value binding disagree"
  | .recursion name =>
    "recursive use of " ++ name ++ " disagrees with its definition"

inductive RecordForm where
  | expression
  | pattern
  | type
deriving DecidableEq, Repr

def RecordForm.text : RecordForm → String
  | .expression => "record"
  | .pattern => "record pattern"
  | .type => "record type"

inductive Restriction where
  | labelTwice (label : String) (form : RecordForm)
  | realPattern
  | argumentMissing (constructor : LongName)
  | notConstructor (name : LongName)
  | variableTwice (name : String)
  | bindingTwice (name : String)
  | recursivePattern
  | recursiveValue (name : String)
  | typeTwice (name : String)
  | constructorTwice (name : String)
  | notException (name : LongName)
  | alreadyDefined (type : LongName)
  | notRefinable (type : LongName)
deriving DecidableEq, Repr

def Restriction.text : Restriction → String
  | .labelTwice label form =>
    "label " ++ label ++ " appears twice in " ++ form.text
  | .realPattern => "real constants cannot be matched"
  | .argumentMissing constructor =>
    "constructor " ++ constructor.text ++ " requires an argument"
  | .notConstructor name => name.text ++ " is not a constructor"
  | .variableTwice name =>
    "variable " ++ name ++ " is bound twice in pattern"
  | .bindingTwice name => name ++ " is bound twice in one declaration"
  | .recursivePattern => "val rec binds variables only"
  | .recursiveValue name =>
    "val rec binding of " ++ name ++ " must be a function expression"
  | .typeTwice name => "type " ++ name ++ " is declared twice"
  | .constructorTwice name => "constructor " ++ name ++ " is declared twice"
  | .notException name => name.text ++ " is not an exception"
  | .alreadyDefined type =>
    "type " ++ type.text ++ " is already defined in the signature"
  | .notRefinable type => "type " ++ type.text ++ " cannot be refined"

inductive Shortfall where
  | typeMissing (name : String)
  | typeArity (name : String) (implemented specified : Nat)
  | typeEquality (name : String)
  | constructorMissing (constructor type : String)
  | structureMissing (name : String)
  | definition (type : String)
  | valueMissing (name : String)
  | notConstructor (name : String)
  | valueType (name : String) (mismatch : Mismatch)
  | valueFault (fault : TypeFault)
  | lessGeneral (name : String)

def staticErrorKind : String := "Elaboration failed"

def Shortfall.text : Shortfall → String
  | .typeMissing name => "type " ++ name ++ " is not implemented"
  | .typeArity name implemented specified =>
    "type " ++ name ++ " has arity " ++ toString implemented ++ " but " ++
      toString specified ++ " is specified"
  | .typeEquality name => "type " ++ name ++ " does not admit equality"
  | .constructorMissing constructor type =>
    "constructor " ++ constructor ++ " of type " ++ type ++
      " is not implemented"
  | .structureMissing name => "structure " ++ name ++ " is not implemented"
  | .definition type =>
    "type " ++ type ++ " does not agree with its specified definition"
  | .valueMissing name => "value " ++ name ++ " is not implemented"
  | .notConstructor name =>
    name ++ " is specified as a constructor but implemented as a value"
  | .valueType name mismatch =>
    "value " ++ name ++ " does not match its specification, " ++
      mismatch.message
  | .valueFault fault => staticErrorKind ++ ": " ++ fault.message
  | .lessGeneral name =>
    "value " ++ name ++ " is less general than its specification"

inductive ElabCause where
  | unbound (entity : Entity) (name : String)
  | clash (context : ClashContext) (mismatch : Mismatch)
  /-- An explicit type variable stands for something else. -/
  | rigid (name : String) (type : Ty)
  | type (fault : TypeFault)
  | signature (shortfall : Shortfall)
  | parameterTwice (name : String)
  | unguarded (name : String)
  | rebind (name : String)
  | unresolved (type : Ty)
  | invalid (restriction : Restriction)
  /-- The phrase is deeper than the bound of the elaboration. -/
  | tooDeep

def ElabCause.text : ElabCause → String
  | .unbound entity name =>
    "unbound " ++ entity.text ++ " \"" ++ name ++ "\""
  | .clash context mismatch => context.text ++ ", " ++ mismatch.message
  | .rigid name found =>
    "type variable " ++ name ++ " cannot be instantiated to " ++
      (found.normalize 0 false).1.text
  | .type fault => fault.message
  | .signature shortfall => "signature mismatch: " ++ shortfall.text
  | .parameterTwice name =>
    "type variable " ++ name ++ " is bound more than once"
  | .unguarded name => "unguarded type variable " ++ name
  | .rebind name => "constructor \"" ++ name ++ "\" cannot be rebound"
  | .unresolved record =>
    "unresolved flexible record type " ++ (record.normalize 0 false).1.text
  | .invalid restriction => restriction.text
  | .tooDeep => "phrase is nested too deeply"

structure ElabError where
  cause : ElabCause
  /-- Without source while the place is not known. -/
  span : Span := {}

namespace ElabError

def message (error : ElabError) : String :=
  error.span.annotate (staticErrorKind ++ ": " ++ error.cause.text)

end ElabError

structure Warning where
  type : Ty
  span : Span

namespace Warning

def text (warning : Warning) : String :=
  "type variables of " ++ (warning.type.normalize 0 false).1.text ++
    " are not generalized because the expression is expansive"

def message (warning : Warning) : String :=
  warning.span.annotate ("Warning: " ++ warning.text)

end Warning

end Sml
