import Sml.Elaboration.Error
import Sml.Scope.Tree

/-!
# The state of elaboration

Elaboration threads the scope tree, the store of type variables and the supply
of names through a phrase.  An error keeps the tree, since numbers once given
to types are not given again.
-/

namespace Sml

structure ElabState where
  tree : ScopeTree
  store : Store := {}
  supply : NameSupply := {}
  /-- The latest first. -/
  warnings : List Warning := []
  strict : Bool := false
  /-- How many expressions of value bindings are open; none at top level. -/
  level : Nat := 0
  /-- Types whose variables must not be generalized: those of the pattern
  variables around, of functions being defined and of expansive bindings. -/
  monomorphic : List Ty := []
  /-- The scopes of explicit type variables with the variables that stand for
  them, innermost first. -/
  explicit : List (Table String) := []
  /-- Records of which only some fields are known, the latest first. -/
  flexible : List (Ty × Span) := []

abbrev Elab := EStateM ElabError ElabState

namespace Elab

variable {α : Type}

def failAt (span : Span) (cause : ElabCause) : Elab α :=
  throw { cause, span }

def invalid (span : Span) (restriction : Restriction) : Elab α :=
  failAt span (.invalid restriction)

def unbound (span : Span) (entity : Entity) (name : String) : Elab α :=
  failAt span (.unbound entity name)

/-! ## Scopes -/

def nested (scope : Scope) : Elab Scope :=
  modifyGet fun state =>
    let (inner, tree) := state.tree.nested scope
    (inner, { state with tree })

def withChanges (scope : Scope) (changes : Changes) : Elab Scope :=
  modifyGet fun state =>
    let (inner, tree) := state.tree.withChanges scope changes
    (inner, { state with tree })

def write (scope : Scope) (f : Frame → Frame) : Elab Unit :=
  modify fun state => { state with tree := state.tree.write scope f }

def newTypeId (name : String) : Elab Nat :=
  modifyGet fun state =>
    let (id, tree) := state.tree.newTypeId name
    (id, { state with tree })

def look (f : ScopeTree → α) : Elab α := do
  return f (← get).tree

def value? (scope : Scope) (name : LongName) : Elab (Option StaticValue) :=
  look fun tree => tree.staticValue? scope name.path name.name

/-! ## Type variables -/

def freshName : Elab String :=
  modifyGet fun state =>
    let (name, supply) := state.supply.fresh
    (name, { state with supply })

def freshNameLike (name : String) : Elab String :=
  modifyGet fun state =>
    let (name, supply) := state.supply.freshLike name
    (name, { state with supply })

def fresh : Elab Ty := do
  return .plain (← freshName)

def freshRecord (fields : Table Ty) (span : Span) : Elab Ty := do
  let row ← freshName
  modify fun state =>
    { state with
      store := state.store.bind row (.record fields false) false
      flexible := (.plain row, span) :: state.flexible }
  return .plain row

def unify (scope : Scope) (left right : Ty) (span : Span)
    (context : ClashContext) : Elab Ty := do
  let state ← get
  match Ty.merge (state.tree.typeEnv scope) state.store left right with
  | .ok (merged, store) =>
    set { state with store }
    return merged
  | .error (.mismatch mismatch) => failAt span (.clash context mismatch)
  | .error (.fault fault) => failAt span (.type fault)

def resolve (scope : Scope) (type : Ty) : Elab Ty := do
  let state ← get
  match type.instantiate (state.tree.typeEnv scope) state.store with
  | .ok type => return type
  | .error fault => throw { cause := .type fault }

/-- The body of a scheme with fresh variables for the bound ones.  Free ones
keep their names. -/
def instantiateScheme (scheme : Ty) : Elab Ty := do
  match scheme.unquantify with
  | ([], _) => return scheme
  | (binders, body) =>
    let types ← binders.mapM fun binder => do
      if binder.free then
        return (binder.name, Ty.var binder.name binder.domain true)
      else
        return (binder.name,
          Ty.var (← freshNameLike binder.name) binder.domain false)
    return body.substitute (Table.ofList types)

/-! ## Explicit type variables -/

def findExplicit? (scopes : List (Table String)) (name : String) :
    Option String :=
  scopes.findSome? fun table => Table.get? table name

def checkParameters (span : Span) : List String → Elab Unit
  | names => go [] names
where
  go (seen : List String) : List String → Elab Unit
    | [] => pure ()
    | name :: rest =>
      if seen.contains name then failAt span (.parameterTwice name)
      else go (name :: seen) rest

/-- The variables that stand for the type variables of a value declaration:
those it declares, and those it mentions that are in no scope yet. -/
def explicitTable (declared mentioned : List String) (span : Span) :
    Elab (Table String) := do
  checkParameters span declared
  let own ← declared.foldlM
    (fun table name => do
      return Table.insert table name (← freshNameLike name)) []
  let names := Table.keys
    (Table.ofList (mentioned.map fun name => (name, ())))
  let scopes := (← get).explicit
  names.foldlM
    (fun table name => do
      if (findExplicit? scopes name).isSome || Table.contains table name then
        return table
      else return Table.insert table name (← freshNameLike name)) own

def enterExplicit (declared mentioned : List String) (span : Span) :
    Elab Unit := do
  let table ← explicitTable declared mentioned span
  modify fun state => { state with explicit := table :: state.explicit }

/-- Closes the innermost scope of explicit type variables, which still have
to be variables and all different. -/
def leaveExplicit (scope : Scope) (span : Span) : Elab Unit := do
  match (← get).explicit with
  | [] => pure ()
  | table :: rest =>
    modify fun state => { state with explicit := rest }
    check [] table
where
  check (seen : List String) : Table String → Elab Unit
    | [] => pure ()
    | (source, standIn) :: rest => do
      let type ← resolve scope (.plain standIn)
      match type with
      | .var name _ _ =>
        if (Ty.isEqualityName source || !Ty.isEqualityName name) &&
            !seen.contains name then
          check (name :: seen) rest
        else failAt span (.rigid source type)
      | _ => failAt span (.rigid source type)

def outsideExplicit (action : Elab α) : Elab α := do
  match (← get).explicit with
  | [] => action
  | table :: rest =>
    modify fun state => { state with explicit := rest }
    let result ← action
    modify fun state => { state with explicit := table :: state.explicit }
    return result

/-! ## Generalization -/

def environment (scope : Scope) : Elab (List String) := do
  let state ← get
  let standIns := state.explicit.flatMap fun table =>
    (Table.values table).map Ty.plain
  let types ← (state.monomorphic.reverse ++ standIns).mapM (resolve scope)
  return types.flatMap fun type => Table.keys (type.variableDomains false)

def settleOverloading (scope : Scope) (type : Ty) (span : Span) :
    Elab Unit := do
  let type ← resolve scope type
  for (name, domain) in type.variableDomains false do
    match domain with
    | default :: _ =>
      let _ ← unify scope (.var name domain false) default span .overloading
    | [] => pure ()

/-- The scheme that is kept for a value of the type.  The variables of an
expansive expression are not quantified; at top level they become free. -/
def generalize (scope : Scope) (type : Ty) (expansive : Bool) (span : Span) :
    Elab Ty := do
  if (← get).strict then settleOverloading scope type span
  let type ← resolve scope type
  let domains := type.variableDomains false
  if expansive then
    if 0 < (← get).level then
      modify fun state =>
        { state with monomorphic := type :: state.monomorphic }
      return type
    else if (Table.values domains).all fun domain => !domain.isEmpty then
      return type
    else
      modify fun state =>
        { state with warnings := ⟨type, span⟩ :: state.warnings }
      return type.makeFree
  else
    let around ← environment scope
    let free := type.variableDomains true
    let quantified := type.variableNames.filter fun name =>
      !around.contains name && !Table.contains free name &&
        (Table.get? domains name).any List.isEmpty
    return type.quantify quantified

def keepingMonomorphic (action : Elab α) : Elab α := do
  let before := (← get).monomorphic
  let result ← action
  modify fun state => { state with monomorphic := before }
  return result

def withMonomorphic (types : List Ty) (action : Elab α) : Elab α :=
  keepingMonomorphic do
    modify fun state =>
      { state with monomorphic := types ++ state.monomorphic }
    action

def inBinding (action : Elab α) : Elab α := do
  modify fun state => { state with level := state.level + 1 }
  let result ← action
  modify fun state => { state with level := state.level - 1 }
  return result

/-! ## Finishing -/

def checkFlexible (scope : Scope) : Elab Unit := do
  let records := (← get).flexible.reverse
  modify fun state => { state with flexible := [] }
  for (type, span) in records do
    let type ← resolve scope type
    if !type.isResolved then failAt span (.unresolved type)

mutual

def resolveBasis (scope : Scope) (finish : Ty → Ty) :
    StaticBasis → Elab StaticBasis
  | ⟨types, values, structures, signatures, functors⟩ => do
    let values ← values.mapM fun (name, value) => do
      let type ← resolve scope value.type
      return (name, { value with type := finish type })
    let structures ← resolveStructures scope finish structures
    return { types, values, structures, signatures, functors }

def resolveStructures (scope : Scope) (finish : Ty → Ty) :
    List (String × StaticBasis) → Elab (List (String × StaticBasis))
  | [] => return []
  | (name, basis) :: rest => do
    let basis ← resolveBasis scope finish basis
    let rest ← resolveStructures scope finish rest
    return (name, basis) :: rest

end

end Elab

end Sml
