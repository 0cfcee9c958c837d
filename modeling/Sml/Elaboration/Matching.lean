import Sml.Elaboration.Monad

/-!
# Matching a structure against a signature

A signature is a basis whose types have numbers of their own.  Matching finds
for each of them the type that the structure has in its place, and checks
every value of the signature against the structure's.  Two realisations are
built side by side: one leads to what the structure has and is used to check,
the other leads to what the result shows, in which hidden types are new ones.
-/

namespace Sml

structure TypeFunction where
  parameters : List String
  body : Ty

namespace TypeFunction

def apply (function : TypeFunction) (arguments : List Ty) : Ty :=
  function.body.substitute
    (Table.ofList (function.parameters.zip arguments))

def parameterNames (parameters : List Ty) : List String :=
  parameters.filterMap fun parameter =>
    match parameter with
    | .var name _ _ => some name
    | _ => none

def ofInfo (info : TypeInfo) : TypeFunction :=
  match info.abbreviation? with
  | some abbreviation =>
    ⟨parameterNames abbreviation.parameters, abbreviation.body⟩
  | none =>
    match info.type with
    | .con _ parameters => ⟨parameterNames parameters, info.type⟩
    | other => ⟨[], other⟩

end TypeFunction

/-- What declared types are realised by, later entries first. -/
abbrev Realisation := List ((String × Nat) × TypeFunction)

namespace Realisation

def insert (realisation : Realisation) (name : String) (id : Nat)
    (function : TypeFunction) : Realisation :=
  ((name, id), function) :: realisation

def apply (realisation : Realisation) : Ty → Ty :=
  Ty.mapCons fun head arguments =>
    match realisation.lookup (head.name, head.id) with
    | some function => function.apply arguments
    | none => .con head arguments

end Realisation

namespace Elab

/-- The realisation used to check and the one that the result shows. -/
structure Realised where
  checked : Realisation := []
  shown : Realisation := []

private def shortfall {α : Type} (span : Span) (what : Shortfall) : Elab α :=
  failAt span (.signature what)

section Match

variable (scope : Scope) (span : Span)

/-! ## Types -/

def checkEquality (name : String) (specified : TypeInfo)
    (function : TypeFunction) : Elab Unit := do
  if specified.equality then
    let env ← look fun tree => tree.typeEnv scope
    match function.body.asEqualityType.admitsEquality env with
    | some true => return
    | some false => shortfall span (.typeEquality name)
    | none => failAt span (.type .endless)

def checkConstructors (name : String) (specified implemented : TypeInfo) :
    Elab Unit := do
  for constructor in specified.constructors do
    if !implemented.constructors.contains constructor then
      shortfall span (.constructorMissing constructor name)

/-- Checks a type that the signature leaves abstract or gives constructors,
and realises it.  Gives what the result has in its place. -/
def matchAbstractType (hides : Bool) (path : List String) (name : String)
    (specified implemented : TypeInfo) (realised : Realised) :
    Elab (TypeInfo × Realised) := do
  let function := TypeFunction.ofInfo implemented
  checkEquality scope span name specified function
  checkConstructors span name specified implemented
  let checked := realised.checked.insert name specified.id function
  if !hides || !specified.constructors.isEmpty then
    return (implemented,
      ⟨checked, realised.shown.insert name specified.id function⟩)
  else
    let parameters := (TypeFunction.ofInfo specified).parameters
    let id ← newTypeId name
    let type := Ty.con { name, path, hidden := true, id }
      (parameters.map Ty.plain)
    let info : TypeInfo :=
      { type, arity := specified.arity, equality := specified.equality }
    return (info,
      ⟨checked, realised.shown.insert name specified.id ⟨parameters, type⟩⟩)

def matchAbstractTypes (hides : Bool) (path : List String)
    (implemented : Table TypeInfo) :
    List (String × TypeInfo) → Table TypeInfo → Realised →
      Elab (Table TypeInfo × Realised)
  | [], result, realised => return (result, realised)
  | (name, specified) :: rest, result, realised => do
    match Table.get? implemented name with
    | none => shortfall span (.typeMissing name)
    | some info =>
      if specified.arity ≠ info.arity then
        shortfall span (.typeArity name info.arity specified.arity)
      else if specified.isAbbreviation then
        matchAbstractTypes hides path implemented rest result realised
      else
        let (info, realised) ←
          matchAbstractType scope span hides path name specified info realised
        matchAbstractTypes hides path implemented rest
          (Table.insert result name info) realised

mutual

/-- Matches the types that the signature does not define.  The basis that
comes out has these types alone. -/
def matchAbstract (hides : Bool) (path : List String)
    (implemented : StaticBasis) :
    StaticBasis → Realised → Elab (StaticBasis × Realised)
  | ⟨types, _, structures, _, _⟩, realised => do
    let (types, realised) ← matchAbstractTypes scope span hides path
      implemented.types types [] realised
    let (structures, realised) ← matchAbstractIn hides path
      implemented.structures structures realised
    return ({ types, structures }, realised)

def matchAbstractIn (hides : Bool) (path : List String)
    (implemented : Table StaticBasis) :
    List (String × StaticBasis) → Realised →
      Elab (List (String × StaticBasis) × Realised)
  | [], realised => return ([], realised)
  | (name, specified) :: rest, realised => do
    match Table.get? implemented name with
    | none => shortfall span (.structureMissing name)
    | some basis =>
      let (basis, realised) ←
        matchAbstract hides (path ++ [name]) basis specified realised
      let (others, realised) ←
        matchAbstractIn hides path implemented rest realised
      return ((name, basis) :: others, realised)

end

def matchDefinedTypes (implemented : Table TypeInfo) :
    List (String × TypeInfo) → Table TypeInfo → Realised →
      Elab (Table TypeInfo × Realised)
  | [], result, realised => return (result, realised)
  | (name, specified) :: rest, result, realised => do
    match specified.abbreviation?, Table.get? implemented name with
    | some abbreviation, some info =>
      let arguments ← (List.range specified.arity).mapM fun _ => fresh
      let expected : TypeFunction :=
        ⟨(TypeFunction.ofInfo specified).parameters,
          realised.checked.apply abbreviation.body⟩
      let actual := TypeFunction.ofInfo info
      let state ← get
      match Ty.merge (state.tree.typeEnv scope) state.store
          (expected.apply arguments) (actual.apply arguments) with
      | .error _ => shortfall span (.definition name)
      | .ok _ =>
        let head := abbreviation.head
        matchDefinedTypes implemented rest (Table.insert result name info)
          ⟨realised.checked.insert head.name head.id actual,
            realised.shown.insert head.name head.id actual⟩
    | _, _ => matchDefinedTypes implemented rest result realised

mutual

def matchDefined (implemented : StaticBasis) :
    StaticBasis → StaticBasis → Realised → Elab (StaticBasis × Realised)
  | ⟨types, _, structures, _, _⟩, result, realised => do
    let (types, realised) ← matchDefinedTypes scope span implemented.types
      types result.types realised
    let (structures, realised) ← matchDefinedIn implemented.structures
      structures result.structures realised
    return ({ result with types, structures }, realised)

def matchDefinedIn (implemented : Table StaticBasis) :
    List (String × StaticBasis) → Table StaticBasis → Realised →
      Elab (Table StaticBasis × Realised)
  | [], result, realised => return (result, realised)
  | (name, specified) :: rest, result, realised => do
    match Table.get? implemented name, Table.get? result name with
    | some basis, some inner =>
      let (inner, realised) ← matchDefined basis specified inner realised
      matchDefinedIn implemented rest (Table.insert result name inner) realised
    | _, _ => matchDefinedIn implemented rest result realised

end

/-! ## Values -/

/-- Whether the variables that stand for those of a specification are still
variables and all different. -/
def areRigid (env : TypeEnv) (store : Store) :
    (seen : List String) → Table String → Except Shortfall Bool
  | _, [] => .ok true
  | seen, (source, standIn) :: rest =>
    match (Ty.plain standIn).instantiate env store with
    | .error fault => .error (.valueFault fault)
    | .ok (.var name _ _) =>
      if (Ty.isEqualityName source || !Ty.isEqualityName name) &&
          !seen.contains name then
        areRigid env store (name :: seen) rest
      else .ok false
    | .ok _ => .ok false

/-- Checks that a value is at least as general as specified: the variables
of the specification are held fast, those of the value are not. -/
def matchValue (name : String) (specified implemented : Ty) : Elab Unit := do
  let (binders, body) := specified.unquantify
  let rigid ← binders.mapM fun binder => do
    return (binder.name, ← freshNameLike binder.name)
  let rigid := Table.ofList rigid
  let actual ← instantiateScheme implemented
  let state ← get
  let env := state.tree.typeEnv scope
  match Ty.merge env state.store (body.rename rigid) actual with
  | .error (.mismatch mismatch) => shortfall span (.valueType name mismatch)
  | .error (.fault fault) => shortfall span (.valueFault fault)
  | .ok (_, store) =>
    match areRigid env store [] rigid with
    | .ok true => pure ()
    | .ok false => shortfall span (.lessGeneral name)
    | .error what => shortfall span what

def matchValuesOf (realised : Realised) (implemented : Table StaticValue) :
    List (String × StaticValue) → Elab (List (String × StaticValue))
  | [] => return []
  | (name, specified) :: rest => do
    match Table.get? implemented name with
    | none => shortfall span (.valueMissing name)
    | some value =>
      if specified.status.isConstructor && value.status != specified.status then
        shortfall span (.notConstructor name)
      else
        matchValue scope span name (realised.checked.apply specified.type)
          value.type
        let shown : StaticValue :=
          { type := realised.shown.apply specified.type
            status := specified.status }
        let others ← matchValuesOf realised implemented rest
        return (name, shown) :: others

mutual

def matchValues (realised : Realised) (implemented : StaticBasis) :
    StaticBasis → StaticBasis → Elab StaticBasis
  | ⟨_, values, structures, _, _⟩, result => do
    let values ← matchValuesOf scope span realised implemented.values values
    let structures ← matchValuesIn realised implemented.structures structures
      result.structures
    return { result with values, structures }

def matchValuesIn (realised : Realised) (implemented : Table StaticBasis) :
    List (String × StaticBasis) → Table StaticBasis →
      Elab (Table StaticBasis)
  | [], result => return result
  | (name, specified) :: rest, result => do
    match Table.get? implemented name, Table.get? result name with
    | some basis, some inner =>
      let inner ← matchValues realised basis specified inner
      matchValuesIn realised implemented rest (Table.insert result name inner)
    | _, _ => matchValuesIn realised implemented rest result

end

end Match

/-- The view of a structure that a signature gives, and what the types of
the signature are realised by. -/
def matchSignature (scope : Scope) (span : Span) (hides : Bool)
    (implemented specified : StaticBasis) :
    Elab (StaticBasis × Realisation) := do
  let inner ← nested scope
  write inner (·.installStatics implemented)
  let (result, realised) ←
    matchAbstract inner span hides [] implemented specified {}
  let (result, realised) ←
    matchDefined inner span implemented specified result realised
  let result ← matchValues inner span realised implemented specified result
  return (result, realised.checked)

end Elab

end Sml
