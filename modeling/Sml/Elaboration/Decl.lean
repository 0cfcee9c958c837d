import Sml.Elaboration.Structure

/-!
# Declarations

A declaration is elaborated in a scope and gives a scope around which its
names are declared.
-/

namespace Sml.Elab

structure Member where
  name : String
  pattern : Option Pat
  body : Expr
  span : Span

section Rules

variable (inner : Inner) (scope : Scope)

/-! ## Values -/

structure PendingValue where
  name : String
  type : Ty
  expansive : Bool
  span : Span

def pendingValues (span : Span) :
    List (ValBind Expr) → List PendingValue → Elab (List PendingValue)
  | [], pending => return pending
  | binding :: rest, pending => do
    let body ← inBinding (inner.expr scope binding.body)
    let (type, bound) ← pattern scope binding.pattern
    let _ ← unify scope type body binding.span .valueBinding
    let expansive := !(← isNonexpansive scope binding.body)
    let pending ← bound.foldlM
      (fun pending (name, type) => do
        if pending.any fun earlier => earlier.name == name then
          invalid span (.bindingTwice name)
        else
          return pending ++ [⟨name, type, expansive, binding.span⟩])
      pending
    pendingValues span rest pending

def valueBindings (span : Span) (bindings : List (ValBind Expr)) :
    Elab Scope := do
  let pending ← pendingValues inner scope span bindings []
  let result ← nested scope
  let schemes ← outsideExplicit <| pending.mapM fun value => do
    return (value.name,
      ← generalize scope value.type value.expansive value.span)
  for (name, type) in schemes do
    write result (·.setStaticValue name { type })
  return result

def recursiveMembers : List (ValBind Expr) → Elab (List Member)
  | [] => return []
  | binding :: rest => do
    match binding.pattern.simpleName? with
    | none => invalid binding.span .recursivePattern
    | some name =>
      if !(← look fun tree => tree.mayRebind scope name) then
        failAt binding.span (.rebind name)
      else if binding.body.functionRules?.isNone then
        invalid binding.span (.recursiveValue name)
      else
        let others ← recursiveMembers rest
        return ⟨name, some binding.pattern, binding.body, binding.span⟩ ::
          others

def declareMembers (group : Scope) :
    List Member → List String → Elab (List (Member × Ty))
  | [], _ => return []
  | member :: rest, declared => do
    if declared.contains member.name then
      invalid member.span (.bindingTwice member.name)
    let type ← fresh
    write group (·.setStaticValue member.name { type, pending := true })
    let others ← declareMembers group rest (member.name :: declared)
    return (member, type) :: others

/-- Elaborates functions that see each other, each with one type, and
generalizes their types together. -/
def recursiveGroup (members : List Member) : Elab Scope := do
  let result ← nested scope
  let group ← nested result
  let members ← declareMembers group members []
  withMonomorphic (members.map (·.2)).reverse do
    for (member, type) in members do
      let body ← inBinding (inner.expr group member.body)
      let _ ← unify group type body member.span (.recursion member.name)
      match member.pattern with
      | some written =>
        let (written, _) ← pattern scope written
        let _ ← unify group type written member.span .valueBinding
      | none => pure ()
  let schemes ← outsideExplicit <| members.mapM fun (member, type) => do
    return (member.name, ← generalize group type false member.span)
  for (name, type) in schemes do
    write result (·.setStaticValue name { type })
  return result

def withExplicit (parameters : List String) (declaration : Decl) (span : Span)
    (action : Elab Scope) : Elab Scope := do
  enterExplicit parameters declaration.typeVariables span
  let result ← action
  leaveExplicit scope span
  return result

/-! ## All declarations -/

def openStructures (span : Span) (names : List LongName) : Elab Scope := do
  let result ← nested scope
  for long in names do
    match ← look fun tree => tree.staticStructure? scope long.parts with
    | some basis => write result (·.installStatics basis)
    | none => unbound span .struct long.text
  return result

def declRule (declaration : Decl) : Elab Scope :=
  match declaration with
  | .val false parameters bindings span =>
    withExplicit scope parameters declaration span
      (valueBindings inner scope span bindings)
  | .val true parameters bindings span =>
    withExplicit scope parameters declaration span do
      recursiveGroup inner scope (← recursiveMembers scope bindings)
  | .functions parameters bindings span =>
    withExplicit scope parameters declaration span <|
      recursiveGroup inner scope <|
        bindings.map fun binding =>
          ⟨binding.name, none, binding.toExpr, binding.span⟩
  | .types bindings _ => typeBindings scope bindings
  | .datatypes bindings _ => datatypeBindings scope bindings
  | .replicate name target span => replicateDatatype scope name target span
  | .exceptions bindings _ => exceptionBindings scope bindings
  | .localIn hidden body _ => do
    let within ← inner.decl scope hidden
    let mark ← nested within
    let after ← inner.decl mark body
    let changes ← look fun tree => tree.changesSince after (tree.level mark)
    withChanges scope changes
  | .opened names span => openStructures scope span names
  | .seq declarations _ => declarations.foldlM inner.decl scope
  | .fixity fixity names _ => do
    let result ← nested scope
    for name in names do
      write result (·.setFixity name fixity)
    return result
  | .structures bindings _ => structureBindings inner scope bindings
  | .signatures bindings _ => signatureBindings scope bindings
  | .functors bindings _ => functorBindings inner scope bindings

end Rules

end Sml.Elab
