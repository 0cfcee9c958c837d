import Sml.Evaluation.Error
import Sml.Scope.Tree

/-!
# Interfaces of signatures

The names that a signature shows of a structure.
-/

namespace Sml

namespace ScopeTree

def dynamicType? (tree : ScopeTree) (scope : Scope) (name : LongName) :
    Option DynamicType :=
  if name.isSimple then tree.dynamicTypeWhere? scope none 0 name.name
  else do Table.get? (← tree.dynamicStructure? scope name.path).types name.name

end ScopeTree

namespace Interface

def addValue (name : String) (status : IdStatus) (interface : Interface) :
    Interface :=
  { interface with values := Table.insert interface.values name status }

def addType (name : String) (constructors : List String)
    (interface : Interface) : Interface :=
  let interface := constructors.foldl
    (fun interface constructor => interface.addValue constructor .constructor)
    interface
  { interface with types := Table.insert interface.types name constructors }

variable (tree : ScopeTree) (scope : Scope)

mutual

def ofSignature : SigExp → Except EvalError Interface
  | .sig specs _ => addSpecs specs {}
  | .name name span =>
    match tree.dynamicSignature? scope name with
    | some interface => .ok interface
    | none => .error { cause := .undefined .signature name, span }
  | .whereType body _ _ _ _ => ofSignature body

def addSpec : Spec → Interface → Except EvalError Interface
  | .val name _ _, interface => .ok (interface.addValue name .value)
  | .type _ name _ _ _, interface => .ok (interface.addType name [])
  | .datatypes bindings _, interface =>
    .ok <| bindings.foldl
      (fun interface binding =>
        interface.addType binding.name binding.constructorNames) interface
  | .replicate name target span, interface =>
    match tree.dynamicType? scope target with
    | some type => .ok (interface.addType name type.constructors)
    | none => .error { cause := .undefined .type target.text, span }
  | .exn name _ _, interface => .ok (interface.addValue name .exception)
  | .substructure name body _, interface => do
    let inner ← ofSignature body
    return { interface with
      structures := Table.insert interface.structures name inner }
  | .included body _, interface => do
    return interface.override (← ofSignature body)

def addSpecs : List Spec → Interface → Except EvalError Interface
  | [], interface => .ok interface
  | spec :: rest, interface => do
    let interface ← addSpec spec interface
    addSpecs rest interface

end

end Interface

end Sml
