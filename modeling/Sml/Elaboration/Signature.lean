import Sml.Elaboration.Datatype

/-!
# Signatures
-/

namespace Sml.Elab

def refineAt (span : Span) (f : StaticBasis → Except ElabError StaticBasis) :
    (path : List String) → StaticBasis → Except ElabError StaticBasis
  | [], basis => f basis
  | name :: rest, basis =>
    match Table.get? basis.structures name with
    | none => .error { cause := .unbound .struct name, span }
    | some inner => do
      let inner ← refineAt span f rest inner
      return { basis with
        structures := Table.insert basis.structures name inner }

def defineType (span : Span) (parameters : List String) (name : LongName)
    (body : Ty) (basis : StaticBasis) : Except ElabError StaticBasis :=
  match Table.get? basis.types name.name with
  | none => .error { cause := .unbound .type name.text, span }
  | some info =>
    if info.arity ≠ parameters.length then
      .error
        { cause := .type (.arity name.text info.arity parameters.length), span }
    else if info.isAbbreviation || !info.constructors.isEmpty then
      .error { cause := .invalid (.alreadyDefined name), span }
    else
      match info.type with
      | .con head _ =>
        let info := TypeInfo.ofAbbreviation
          ⟨head, parameterTypes parameters, body⟩
        .ok { basis with types := Table.insert basis.types name.name info }
      | _ => .error { cause := .invalid (.notRefinable name), span }

mutual

def signature (scope : Scope) : SigExp → Elab StaticBasis
  | .sig specs _ => do
    let mark ← nested scope
    let inner ← specifications mark specs
    look fun tree => (tree.changesSince inner (tree.level mark)).statics
  | .name name span => do
    match ← look fun tree => tree.staticSignature? scope name with
    | some basis => return basis
    | none => unbound span .signature name
  | .whereType body parameters name definition span => do
    let basis ← signature scope body
    checkParameters span parameters
    let definition ← type scope (.parameters parameters) definition
    match refineAt span (defineType span parameters name definition) name.path
        basis with
    | .ok basis => return basis
    | .error error => throw error

def specification (scope : Scope) : Spec → Elab Scope
  | .val name written _ => do
    let type ← type scope .verbatim written
    let result ← nested scope
    write result
      (·.setStaticValue name { type := type.quantify type.variableNames })
    return result
  | .type parameters name definition equality span => do
    checkParameters span parameters
    let id ← newTypeId name
    let info ← match definition with
      | some definition => do
        let body ← type scope (.parameters parameters) definition
        pure (TypeInfo.ofAbbreviation
          ⟨{ name, id }, parameterTypes parameters, body⟩)
      | none =>
        pure
          { type := .con { name, id } (parameterTypes parameters)
            arity := parameters.length
            equality }
    let result ← nested scope
    write result (·.setStaticType name info)
    return result
  | .datatypes bindings _ => datatypeBindings scope bindings
  | .replicate name target span => replicateDatatype scope name target span
  | .exn name argument _ => do
    let type ← exceptionType scope (.parameters []) argument
    let result ← nested scope
    write result (·.setStaticValue name { type, status := .exception })
    return result
  | .substructure name body _ => do
    let basis ← signature scope body
    let result ← nested scope
    write result (·.setStaticStructure name (basis.qualify name))
    return result
  | .included body _ => do
    let basis ← signature scope body
    let result ← nested scope
    write result (·.installStatics basis)
    return result

def specifications (scope : Scope) : List Spec → Elab Scope
  | [] => return scope
  | spec :: rest => do
    let scope ← specification scope spec
    specifications scope rest

end

end Sml.Elab
