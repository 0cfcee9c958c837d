import Sml.Elaboration.TypeExpr

/-!
# Declarations of types and exceptions

Whether a datatype admits equality is the greatest solution of its group: all
types of the group are taken to admit it, and one loses it when an argument of
one of its constructors does not admit it under what is still assumed.
-/

namespace Sml

/-! ## Equality of a group -/

structure GroupMember where
  head : TyCon
  arity : Nat
  arguments : List Ty

namespace GroupMember

def assume (env : TypeEnv) (group : List GroupMember) (equality : List Bool) :
    TypeEnv :=
  (group.zip equality).foldl
    (fun env (member, admits) =>
      env.assume member.head.name member.head.id ⟨member.arity, admits⟩)
    env

/-- Whether all constructor arguments admit equality, variables being read
as equality variables. -/
def argumentsAdmit (env : TypeEnv) (member : GroupMember) : Option Bool :=
  member.arguments.allM fun argument =>
    argument.asEqualityType.admitsEquality env

/-- The members that keep equality under the assumption that those of the
list have it. -/
def refine (env : TypeEnv) (group : List GroupMember) (equality : List Bool) :
    Option (List Bool) :=
  let assumed := assume env group equality
  (group.zip equality).mapM fun (member, admits) =>
    if admits then member.argumentsAdmit assumed else some false

def settle (env : TypeEnv) (group : List GroupMember) :
    (bound : Nat) → List Bool → Option (List Bool)
  | 0, equality => some equality
  | bound + 1, equality => do
    let refined ← refine env group equality
    if refined = equality then return equality
    else settle env group bound refined

def equality (env : TypeEnv) (group : List GroupMember) : Option (List Bool) :=
  settle env group (group.length + 1) (group.map fun _ => true)

end GroupMember

namespace Elab

def parameterTypes (names : List String) : List Ty :=
  names.map Ty.plain

/-! ## Abbreviations -/

def typeBindings (scope : Scope) (bindings : List TypeBind) : Elab Scope := do
  let result ← nested scope
  for binding in bindings do
    checkParameters binding.span binding.parameters
    let body ← type scope (.parameters binding.parameters) binding.type
    let id ← newTypeId binding.name
    let info := TypeInfo.ofAbbreviation
      ⟨{ name := binding.name, id }, parameterTypes binding.parameters, body⟩
    write result (·.setStaticType binding.name info)
  return result

/-! ## Datatypes -/

private def datatypeInfo (binding : DatBind) (head : TyCon) (equality : Bool) :
    TypeInfo where
  type := .con head (parameterTypes binding.parameters)
  constructors := binding.constructorNames
  arity := binding.parameters.length
  equality

def declareDatatypes (result : Scope) :
    List DatBind → List String → Elab (List (DatBind × TyCon))
  | [], _ => return []
  | binding :: rest, declared => do
    checkParameters binding.span binding.parameters
    if declared.contains binding.name then
      invalid binding.span (.typeTwice binding.name)
    let head : TyCon :=
      { name := binding.name, id := ← newTypeId binding.name }
    write result
      (·.setStaticType binding.name (datatypeInfo binding head true))
    let others ← declareDatatypes result rest (binding.name :: declared)
    return (binding, head) :: others

structure ConstructorEntry where
  name : String
  scheme : Ty
  argument : Option Ty

def constructorEntries (result : Scope) (binding : DatBind) (head : TyCon) :
    List ConBind → List String → Elab (List ConstructorEntry)
  | [], _ => return []
  | constructor :: rest, declared => do
    if declared.contains constructor.name then
      invalid constructor.span (.constructorTwice constructor.name)
    let argument ← constructor.argument.mapM
      (type result (.parameters binding.parameters))
    let own := Ty.con head (parameterTypes binding.parameters)
    let whole := match argument with
      | some argument => Ty.arrow argument own
      | none => own
    let entry : ConstructorEntry :=
      { name := constructor.name
        scheme := whole.quantify binding.parameters
        argument }
    let others ← constructorEntries result binding head rest
      (constructor.name :: declared)
    return entry :: others

def groupEntries (result : Scope) :
    List (DatBind × TyCon) → List String →
      Elab (List (DatBind × TyCon × List ConstructorEntry))
  | [], _ => return []
  | (binding, head) :: rest, declared => do
    let entries ← constructorEntries result binding head binding.constructors
      declared
    let others ← groupEntries result rest
      (entries.map (·.name) ++ declared)
    return (binding, head, entries) :: others

def datatypeBindings (scope : Scope) (bindings : List DatBind) :
    Elab Scope := do
  let result ← nested scope
  let declared ← declareDatatypes result bindings []
  let group ← groupEntries result declared []
  let env ← look fun tree => tree.typeEnv result
  let members := group.map fun (binding, head, entries) =>
    { head
      arity := binding.parameters.length
      arguments := entries.filterMap (·.argument) }
  let some equality := GroupMember.equality env members
    | throw { cause := .type .endless }
  for ((binding, head, _), admits) in group.zip equality do
    write result
      (·.setStaticType binding.name (datatypeInfo binding head admits))
  for (_, _, entries) in group do
    for entry in entries do
      write result
        (·.setStaticValue entry.name
          { type := entry.scheme, status := .constructor })
  return result

def replicateDatatype (scope : Scope) (name : String) (target : LongName)
    (span : Span) : Elab Scope := do
  match ← look fun tree => tree.staticType? scope target.path target.name with
  | none => unbound span .type target.text
  | some info =>
    let result ← nested scope
    for constructor in info.constructors do
      match ← value? scope ⟨target.path, constructor⟩ with
      | some value => write result (·.setStaticValue constructor value)
      | none => pure ()
    write result (·.setStaticType name info)
    return result

/-! ## Exceptions -/

def exceptionType (scope : Scope) (mode : VariableMode)
    (argument : Option TypeExpr) : Elab Ty := do
  match argument with
  | some argument => return .arrow (← type scope mode argument) .exn
  | none => return .exn

def exceptionBindings (scope : Scope) (bindings : List ExnBind) :
    Elab Scope := do
  let result ← nested scope
  for binding in bindings do
    let type ← match binding with
      | .new _ argument _ => exceptionType scope .explicit argument
      | .alias _ target span => do
        match ← value? scope target with
        | some value =>
          if value.status = .exception then pure value.type
          else invalid span (.notException target)
        | none => unbound span .exception target.text
    write result
      (·.setStaticValue binding.name { type, status := .exception })
  return result

end Elab

end Sml
