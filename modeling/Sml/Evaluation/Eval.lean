import Sml.Evaluation.Interface
import Sml.Evaluation.Match
import Sml.Evaluation.Primitive
import Sml.Syntax.Derived

/-!
# Evaluation

Phrases are evaluated in a scope.  Every evaluator takes how many steps deep
it may still go, so that a program that does not end gives an answer of its
own for each number.
-/

namespace Sml

namespace Eval

/-! ## Scopes -/

def nested (scope : Scope) : Eval Scope :=
  modifyGet fun tree => tree.nested scope

def enter (scope : Scope) (bound : Bindings) : Eval Scope :=
  modifyGet fun tree =>
    let frame := bound.foldl
      (fun frame (name, value) => frame.setDynamicValue name { value })
      ({ level := tree.level scope + 1 } : Frame)
    tree.push scope frame

def withChanges (scope : Scope) (changes : Changes) : Eval Scope :=
  modifyGet fun tree => tree.withChanges scope changes

def write (scope : Scope) (f : Frame → Frame) : Eval Unit :=
  modify fun tree => tree.write scope f

variable {α : Type}

def look (f : ScopeTree → α) : Eval α := do
  return f (← get)

def catching (action : Eval α) (handler : Value → Eval α) : Eval α :=
  fun tree =>
    match action tree with
    | .error (.raised exn) tree => handler exn tree
    | result => result

def orFault (result : Except EvalError α) : Eval α :=
  match result with
  | .ok value => return value
  | .error error => throw (.fault error)

def truth (value : Value) : Eval Bool :=
  match value.asBool? with
  | some answer => return answer
  | none => fault (.notBoolean value)

def fields {β : Type} (f : β → Eval Value) :
    List (String × β) → Table Value → Eval (Table Value)
  | [], values => return values
  | (label, part) :: rest, values => do
    let value ← f part
    fields f rest (Table.insert values label value)

/-! ## Declarations that evaluate nothing -/

def declareTypes (scope : Scope) (bindings : List TypeBind) : Eval Scope := do
  let result ← nested scope
  for binding in bindings do
    write result (·.setDynamicType binding.name { constructors := [] })
  return result

def constructorValue (constructor : ConBind) : Value :=
  match constructor.argument with
  | some _ => .constructor constructor.name
  | none => .constructed constructor.name none

def declareDatatypes (scope : Scope) (bindings : List DatBind) :
    Eval Scope := do
  let result ← nested scope
  for binding in bindings do
    write result
      (·.setDynamicType binding.name
        { constructors := binding.constructorNames })
    for constructor in binding.constructors do
      write result
        (·.setDynamicValue constructor.name
          { value := constructorValue constructor, status := .constructor })
  return result

def replicateDatatype (scope : Scope) (name : String) (target : LongName)
    (span : Span) : Eval Scope := do
  match ← look fun tree => tree.dynamicType? scope target with
  | none => fault (.undefined .type target.text) span
  | some type =>
    let result ← nested scope
    for constructor in type.constructors do
      match ← look fun tree =>
          tree.dynamicValue? scope target.path constructor with
      | some value => write result (·.setDynamicValue constructor value)
      | none => fault (.undefined .constructor constructor) span
    write result (·.setDynamicType name type)
    return result

def declareExceptions (scope : Scope) (bindings : List ExnBind) :
    Eval Scope := do
  let result ← nested scope
  for binding in bindings do
    match binding with
    | .new name argument _ =>
      let id ← modifyGet fun tree => tree.newExceptionId
      let value := match argument with
        | some _ => Value.exnConstructor name id
        | none => Value.exn name id none
      write result (·.setDynamicValue name { value, status := .exception })
    | .alias name target span =>
      match ← look fun tree =>
          tree.dynamicValue? scope target.path target.name with
      | some value => write result (·.setDynamicValue name value)
      | none => fault (.undefined .exception target.text) span
  return result

def openStructures (scope : Scope) (span : Span) (names : List LongName) :
    Eval Scope := do
  let result ← nested scope
  for long in names do
    match ← look fun tree => tree.dynamicStructure? scope long.parts with
    | some basis => write result (·.installDynamics basis)
    | none => fault (.undefined .struct long.text) span
  return result

def declareFixity (scope : Scope) (fixity : Fixity) (names : List String) :
    Eval Scope := do
  let result ← nested scope
  for name in names do
    write result (·.setFixity name fixity)
  return result

def declareSignatures (scope : Scope) (bindings : List SigBind) :
    Eval Scope := do
  let result ← nested scope
  for binding in bindings do
    let interface ← orFault (Interface.ofSignature (← get) scope binding.body)
    write result (·.setDynamicSignature binding.name interface)
  return result

def declareFunctors (scope : Scope) (bindings : List (FunctorBind StrExp)) :
    Eval Scope := do
  let result ← nested scope
  for binding in bindings do
    let parameter ←
      orFault (Interface.ofSignature (← get) scope binding.parameter)
    let functor : DynamicFunctor :=
      { parameterName := binding.parameterName
        parameter
        body := binding.body
        scope }
    write result (·.setDynamicFunctor binding.name functor)
  return result

def bindFunctions (result : Scope) :
    List (String × Match Expr) → Eval Unit
  | [] => return ()
  | (name, rules) :: rest => do
    write result (·.setDynamicValue name { value := .closure rules result })
    bindFunctions result rest

def recursiveFunctions :
    List (ValBind Expr) → Eval (List (String × Match Expr))
  | [] => return []
  | binding :: rest => do
    match binding.pattern.simpleName?, binding.body.functionRules? with
    | none, _ => fault .recursivePattern
    | some name, none => fault (.recursiveValue name)
    | some name, some rules =>
      let others ← recursiveFunctions rest
      return (name, rules) :: others

def clausalFunctions :
    List (FunBind Expr) → Eval (List (String × Match Expr))
  | [] => return []
  | binding :: rest => do
    match binding.toExpr.functionRules? with
    | none => fault (.noClauses binding.name)
    | some rules =>
      let others ← clausalFunctions rest
      return (binding.name, rules) :: others

def constantValue : Constant → Value
  | .int value => .int value
  | .real value => .real value
  | .string value => .string value
  | .char value => .char value

end Eval

open Eval

mutual

def evalExpr : (steps : Nat) → Scope → Expr → Eval Value
  | 0, _, _ => throw .outOfSteps
  | steps + 1, scope, expr =>
    match expr with
    | .const value _ => return constantValue value
    | .name long span => do
      match ← look fun tree =>
          tree.dynamicValue? scope long.path long.name with
      | some value => return value.value
      | none => fault (.undefined .identifier long.text) span
    | .record parts _ => do
      return .record (← fields (evalExpr steps scope) parts [])
    | .tuple elements _ => do
      return .tuple (← elements.mapM (evalExpr steps scope))
    | .list elements _ => do
      return .list (← elements.mapM (evalExpr steps scope))
    | .selector label _ => return .selector label
    | .app function argument _ => do
      let function ← evalExpr steps scope function
      let argument ← evalExpr steps scope argument
      applyValue steps function argument
    | .typed body _ _ => evalExpr steps scope body
    | .andAlso left right _ => do
      if ← truth (← evalExpr steps scope left) then
        evalExpr steps scope right
      else return .bool false
    | .orElse left right _ => do
      if ← truth (← evalExpr steps scope left) then return .bool true
      else evalExpr steps scope right
    | .cond test yes no _ => do
      if ← truth (← evalExpr steps scope test) then evalExpr steps scope yes
      else evalExpr steps scope no
    | .caseOf scrutinee rules _ => do
      let value ← evalExpr steps scope scrutinee
      evalMatch steps scope rules value BasicExn.match.value
    | .fn rules _ => return .closure rules scope
    | .letIn declaration body _ => do
      let within ← evalDecl steps scope declaration
      evalExpr steps within body
    | .raise exn _ => do
      match ← evalExpr steps scope exn with
      | .exn name id argument => throw (.raised (.exn name id argument))
      | other => fault (.cannotRaise other)
    | .handle body rules _ =>
      catching (evalExpr steps scope body) fun exn =>
        evalMatch steps scope rules exn exn
    | .seq expressions _ =>
      expressions.foldlM (fun _ expr => evalExpr steps scope expr) .unit
    | .loop test body span => do
      if ← truth (← evalExpr steps scope test) then
        let _ ← evalExpr steps scope body
        evalExpr steps scope (.loop test body span)
      else return .unit

/-- The value of the first rule that matches; raises `otherwise` if none
does. -/
def evalMatch : (steps : Nat) → Scope → Match Expr → (value : Value) →
    (otherwise : Value) → Eval Value
  | 0, _, _, _, _ => throw .outOfSteps
  | steps + 1, scope, rules, value, otherwise => do
    let choice ← look fun tree =>
      firstRule? (tree.matchEnv scope) value rules.rules
    match ← orFault choice with
    | some (bound, body) =>
      let inner ← enter scope bound
      evalExpr steps inner body
    | none => throw (.raised otherwise)

def applyValue : (steps : Nat) → (function argument : Value) → Eval Value
  | 0, _, _ => throw .outOfSteps
  | steps + 1, function, argument =>
    match function with
    | .closure rules scope =>
      evalMatch steps scope rules argument BasicExn.match.value
    | .primitive primitive => primitive.apply argument
    | .constructor name => return .constructed name (some argument)
    | .exnConstructor name id => return .exn name id (some argument)
    | .makeRef => allocate argument
    | .selector label =>
      match argument with
      | .record values =>
        match Table.get? values label with
        | some value => return value
        | none => fault (.labelMissing label argument)
      | _ => fault (.notRecord label argument)
    | other => fault (.notFunction other)

def evalBindings : (steps : Nat) → (scope result : Scope) →
    List (ValBind Expr) → Eval Unit
  | 0, _, _, _ => throw .outOfSteps
  | steps + 1, scope, result, bindings =>
    bindings.forM fun binding => do
      let value ← evalExpr steps scope binding.body
      let outcome ← look fun tree =>
        binding.pattern.matchValue (tree.matchEnv scope) value
      let outcome ← orFault outcome
      if outcome.matched then
        outcome.bound.forM fun (name, value) =>
          write result (·.setDynamicValue name { value })
      else raiseBasic .bind

def evalDecl : (steps : Nat) → Scope → Decl → Eval Scope
  | 0, _, _ => throw .outOfSteps
  | steps + 1, scope, declaration =>
    match declaration with
    | .val false _ bindings _ => do
      let result ← nested scope
      evalBindings steps scope result bindings
      return result
    | .val true _ bindings _ => do
      let result ← nested scope
      bindFunctions result (← recursiveFunctions bindings)
      return result
    | .functions _ bindings _ => do
      let result ← nested scope
      bindFunctions result (← clausalFunctions bindings)
      return result
    | .types bindings _ => declareTypes scope bindings
    | .datatypes bindings _ => declareDatatypes scope bindings
    | .replicate name target span => replicateDatatype scope name target span
    | .exceptions bindings _ => declareExceptions scope bindings
    | .localIn hidden body _ => do
      let within ← evalDecl steps scope hidden
      let mark ← nested within
      let after ← evalDecl steps mark body
      let changes ← look fun tree => tree.changesSince after (tree.level mark)
      withChanges scope changes
    | .opened names span => openStructures scope span names
    | .seq declarations _ => declarations.foldlM (evalDecl steps) scope
    | .fixity fixity names _ => declareFixity scope fixity names
    | .structures bindings _ => do
      let bases ← bindings.mapM fun binding => do
        return (binding.name, ← evalStr steps scope binding.body)
      let result ← nested scope
      bases.forM fun (name, basis) =>
        write result (·.setDynamicStructure name basis)
      return result
    | .signatures bindings _ => declareSignatures scope bindings
    | .functors bindings _ => declareFunctors scope bindings

def evalStr : (steps : Nat) → Scope → StrExp → Eval DynamicBasis
  | 0, _, _ => throw .outOfSteps
  | steps + 1, scope, body =>
    match body with
    | .body declaration _ => do
      let mark ← nested scope
      let within ← evalDecl steps mark declaration
      look fun tree => (tree.changesSince within (tree.level mark)).dynamics
    | .name long span => do
      match ← look fun tree => tree.dynamicStructure? scope long.parts with
      | some basis => return basis
      | none => fault (.undefined .struct long.text) span
    | .ascribed _ body signature _ => do
      let basis ← evalStr steps scope body
      let interface ← orFault (Interface.ofSignature (← get) scope signature)
      return basis.restrict interface
    | .apply name argument span => do
      match ← look fun tree => tree.dynamicFunctor? scope name with
      | none => fault (.undefined .functor name) span
      | some functor =>
        let argument ← evalStr steps scope argument
        let inner ← nested functor.scope
        write inner
          (·.setDynamicStructure functor.parameterName
            (argument.restrict functor.parameter))
        evalStr steps inner functor.body
    | .letIn declaration body _ => do
      let within ← evalDecl steps scope declaration
      evalStr steps within body

end

def evalTopLevel (steps : Nat) (scope : Scope) (declaration : Decl) :
    Eval Scope := do
  let group ← nested scope
  let inner ← evalDecl steps group declaration
  let changes ← look fun tree => tree.changesSince inner (tree.level group)
  withChanges scope changes

def evalProgram (steps : Nat) (scope : Scope) (program : Program) :
    Eval Scope :=
  program.declarations.foldlM (evalTopLevel steps) scope

end Sml
