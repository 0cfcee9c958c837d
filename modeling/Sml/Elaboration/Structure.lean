import Sml.Elaboration.Expr
import Sml.Elaboration.Matching
import Sml.Elaboration.Signature

/-!
# Structures and functors

A functor is elaborated where it is declared.  Applying it matches the
argument against the parameter, puts what the parameter's types are realised
by into the body, and gives new numbers to the types that the body declares.
-/

namespace Sml

abbrev Renumbering := List ((String × Nat) × Nat)

namespace Renumbering

def apply (numbers : Renumbering) : Ty → Ty :=
  Ty.mapCons fun head arguments =>
    match numbers.lookup (head.name, head.id) with
    | some id => .con { head with id } arguments
    | none => .con head arguments

end Renumbering

namespace StaticBasis

mutual

/-- The types of a basis and of its structures whose numbers were given out
after the counters stood at `before`. -/
def generatedSince (before : Table Nat) : StaticBasis → List (String × Nat)
  | ⟨types, _, structures, _, _⟩ =>
    (types.filterMap fun (name, info) =>
      if (Table.get? before name).getD 0 ≤ info.id then some (name, info.id)
      else none) ++
    generatedInSince before structures

def generatedInSince (before : Table Nat) :
    List (String × StaticBasis) → List (String × Nat)
  | [] => []
  | (_, basis) :: rest =>
    generatedSince before basis ++ generatedInSince before rest

end

end StaticBasis

namespace Elab

def renumberNext (numbers : Renumbering) (type : String × Nat) :
    Elab Renumbering := do
  return (type, ← newTypeId type.1) :: numbers

def renumber (types : List (String × Nat)) : Elab Renumbering :=
  types.foldlM renumberNext []

section Rules

variable (inner : Inner) (scope : Scope)

def realiseArgument (functor : StaticFunctor) (argument : StrExp)
    (span : Span) : Elab Realisation := do
  let argument ← inner.str scope argument
  return (← matchSignature scope span false argument functor.parameter).2

def applyFunctor (name : String) (argument : StrExp) (span : Span) :
    Elab StaticBasis := do
  match ← look fun tree => tree.staticFunctor? scope name with
  | none => unbound span .functor name
  | some functor =>
    let realisation ← realiseArgument inner scope functor argument span
    let numbers ← renumber functor.generated
    return functor.body.mapTypes fun type =>
      numbers.apply (realisation.apply type)

def structureRule : StrExp → Elab StaticBasis
  | .body declaration _ => do
    let mark ← nested scope
    let within ← inner.decl mark declaration
    let basis ← look fun tree =>
      (tree.changesSince within (tree.level mark)).statics
    resolveBasis within id basis
  | .name long span => do
    match ← look fun tree => tree.staticStructure? scope long.parts with
    | some basis => return basis
    | none => unbound span .struct long.text
  | .ascribed hides body specified span => do
    let basis ← inner.str scope body
    let specified ← signature scope specified
    return (← matchSignature scope span hides basis specified).1
  | .apply functor argument span =>
    applyFunctor inner scope functor argument span
  | .letIn declaration body _ => do
    let mark ← nested scope
    let within ← inner.decl mark declaration
    inner.str within body

/-! ## Bindings -/

def structureBindings (bindings : List (StrBind StrExp)) : Elab Scope := do
  let result ← nested scope
  for binding in bindings do
    let basis ← inner.str scope binding.body
    write result
      (·.setStaticStructure binding.name (basis.qualify binding.name))
  return result

def signatureBindings (bindings : List SigBind) : Elab Scope := do
  let result ← nested scope
  for binding in bindings do
    let basis ← signature scope binding.body
    write result (·.setStaticSignature binding.name basis)
  return result

def functorOf (binding : FunctorBind StrExp) (parameter : StaticBasis) :
    Elab StaticFunctor := do
  let before ← look ScopeTree.typeIds
  let within ← nested scope
  write within
    (·.setStaticStructure binding.parameterName
      (parameter.qualify binding.parameterName))
  let body ← inner.str within binding.body
  return {
    parameterName := binding.parameterName
    parameter
    body
    generated := body.generatedSince before }

def functorBindings (bindings : List (FunctorBind StrExp)) : Elab Scope := do
  let result ← nested scope
  for binding in bindings do
    let parameter ← signature scope binding.parameter
    let functor ← functorOf inner scope binding parameter
    write result (·.setStaticFunctor binding.name functor)
  return result

end Rules

end Elab

end Sml
