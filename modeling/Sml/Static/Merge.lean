import Sml.Static.Basis
import Sml.Static.Fault
import Sml.Static.Store

/-!
# Instantiation and merging of types

Merging makes two types equal by binding variables in a store.  Two variables
keep the smaller name; a variable and another type are bound if the variable
does not occur in it, if it admits equality where the variable demands it, and
if it lies in the variable's domain.  A record that is not complete takes the
fields it lacks from the other side.

Instantiation follows the bindings and unfolds abbreviations.  What
abbreviations there are is told by a `TypeEnv`, and unfolding one merges its
parameters with the arguments, so instantiation and merging are defined
together.  Both count down how deep they may still go; running out is a fault
of its own.
-/

namespace Sml

structure TypeEnv where
  type? : (path : List String) → (name : String) → Option TypeInfo
  value? : (path : List String) → (name : String) → Option StaticValue
  assumed? : (name : String) → (id : Nat) → Option Assumption

namespace TypeEnv

/-- What `head` is declared as, unless another type now has its name. -/
def definition? (env : TypeEnv) (head : TyCon) : Option TypeInfo :=
  (env.type? head.path head.name).filter fun info => info.id == head.id

def argument? (env : TypeEnv) (path : List String) (constructor : String) :
    Option Ty :=
  (env.value? path constructor).bind fun value =>
    match value.type.unquantify.2 with
    | .arrow argument _ => some argument
    | _ => none

def assume (env : TypeEnv) (name : String) (id : Nat) (what : Assumption) :
    TypeEnv :=
  { env with
    assumed? := fun otherName otherId =>
      if otherName = name ∧ otherId = id then some what
      else env.assumed? otherName otherId }

end TypeEnv

abbrev Merging := Except MergeFault (Ty × Store)

namespace Ty

/-! ## Variables with variables -/

def mismatch (reason : Disagreement) (left right : Ty) : Merging :=
  .error (.mismatch ⟨reason, left, right⟩)

def mergeVariables (store : Store) (this that : Binder) : Merging :=
  let domain := mergeDomain this.domain that.domain
  if domain.isEmpty && !(this.domain.isEmpty && that.domain.isEmpty) then
    mismatch .domains (.var this.name this.domain this.free)
      (.var that.name that.domain that.free)
  else if this.name = that.name then
    .ok (.var this.name domain (this.free && that.free), store)
  else
    let free := this.free || that.free
    let (survivor, victim) :=
      if this.name < that.name then (this.name, that.name)
      else (that.name, this.name)
    let merged := Ty.var survivor domain free
    let store := store.bind victim merged free
    let store :=
      if domain.isEmpty then store
      else (store.constrain survivor domain).constrain victim domain
    .ok (merged, store)

/-- The type that a variable is bound to: a free variable makes every variable
in it free. -/
def Binder.mark (binder : Binder) (type : Ty) : Ty :=
  if binder.free then type.makeFree else type

/-! ## Lists and fields -/

def mergePairs (merge : Store → Ty → Ty → Merging) :
    Store → List (Ty × Ty) → Except MergeFault (List Ty × Store)
  | store, [] => .ok ([], store)
  | store, (left, right) :: rest => do
    let (merged, store) ← merge store left right
    let (others, store) ← mergePairs merge store rest
    return (merged :: others, store)

def mergeCons (merge : Store → Ty → Ty → Merging) (store : Store)
    (this : TyCon) (thisArguments : List Ty)
    (that : TyCon) (thatArguments : List Ty) : Merging :=
  if this.same that && thisArguments.length == thatArguments.length then do
    let (arguments, store) ←
      mergePairs merge store (thisArguments.zip thatArguments)
    return (.con { this with hidden := this.hidden || that.hidden } arguments,
      store)
  else mismatch .heads (.con this thisArguments) (.con that thatArguments)

def addField (instantiate : Store → Ty → Except TypeFault Ty)
    (disagree : MergeFault) (otherComplete : Bool)
    (found : List (String × Ty) × Store) (field : String × Ty) :
    Except MergeFault (List (String × Ty) × Store) :=
  if otherComplete then .error disagree
  else
    match instantiate found.2 field.2 with
    | .ok type => .ok (Table.insert found.1 field.1 type, found.2)
    | .error fault => .error (.fault fault)

def mergeField (merge : Store → Ty → Ty → Merging)
    (found : List (String × Ty) × Store) (own : Ty) (field : String × Ty) :
    Except MergeFault (List (String × Ty) × Store) := do
  let (merged, store) ← merge found.2 own field.2
  return (Table.insert found.1 field.1 merged, store)

/-- Merges records of which the second is complete only if the first is.
Fields only one of them has are taken over unless the other is complete. -/
def mergeFields (merge : Store → Ty → Ty → Merging)
    (instantiate : Store → Ty → Except TypeFault Ty) (store : Store)
    (this : List (String × Ty)) (thisComplete : Bool)
    (that : List (String × Ty)) (thatComplete : Bool) : Merging := do
  let disagree := MergeFault.mismatch
    ⟨.members, .record this thisComplete, .record that thatComplete⟩
  let found ← that.foldlM
    (fun found field =>
      match Table.get? this field.1 with
      | some own => mergeField merge found own field
      | none => addField instantiate disagree thisComplete found field)
    ([], store)
  let (fields, store) ← this.foldlM
    (fun found field =>
      if Table.contains found.1 field.1 then pure found
      else addField instantiate disagree thatComplete found field)
    found
  return (.record fields (thisComplete || thatComplete), store)

def threadStore {ε : Type} (f : Store → Ty → Except ε (Ty × Store)) :
    Store → List Ty → Except ε (List Ty × Store)
  | store, [] => .ok ([], store)
  | store, type :: rest => do
    let (type, store) ← f store type
    let (others, store) ← threadStore f store rest
    return (type :: others, store)

/-! ## Abbreviations -/

def freeIndex (store : Store) : (bound : Nat) → (index : Nat) → Nat
  | 0, index => index
  | bound + 1, index =>
    let name := "'*q" ++ toString index
    if store.isBound name || store.isBound (equalityName name) then
      freeIndex store bound (index + 1)
    else index

def expansionNames (store : Store) : (index : Nat) → List String → Table String
  | _, [] => []
  | index, name :: rest =>
    let index := freeIndex store (store.size + 1) index
    let fresh := "'*q" ++ toString index
    Table.insert (expansionNames store (index + 1) rest) name
      (if isEqualityName name then equalityName fresh else fresh)

/-- An abbreviation in variables that the store does not bind. -/
def renewAbbreviation (store : Store) (abbreviation : Abbreviation) :
    Abbreviation :=
  let whole := Ty.arrow (.con abbreviation.head abbreviation.parameters)
    abbreviation.body
  let names := expansionNames store 1 whole.variableNames
  { abbreviation with
    parameters := abbreviation.parameters.map (rename names)
    body := rename names abbreviation.body }

/-! ## Equality -/

/-- Room for unfolding what is declared, besides the types at hand. -/
def unfoldingRoom : Nat := 1000000

mutual

/-- Whether values of the type can be compared, if the test comes to an end.
`unfold` unfolds an abbreviation, and `behind` decides about what a name hides:
the type that an abbreviation stands for and the arguments of constructors. -/
def admitsBy (unfold : TypeEnv → Ty → Except TypeFault Ty)
    (behind : TypeEnv → Ty → Option Bool) : Ty → TypeEnv → Option Bool
  | .any, _ => some true
  | .var name _ _, _ => some (isEqualityName name)
  | .bind _ _ _ body, env => admitsBy unfold behind body env
  | .record fields _, env => fieldsAdmitBy unfold behind fields env
  | .tuple elements, env => allAdmitBy unfold behind elements env
  | .arrow _ _, _ => some false
  | .con head arguments, env =>
    match env.assumed? head.name head.id with
    | some assumed =>
      if assumed.equality then allAdmitBy unfold behind arguments env
      else some false
    | none =>
      match env.type? head.path head.name with
      | none => some true
      | some info =>
        if info.id ≠ head.id then allAdmitBy unfold behind arguments env
        else if info.isAbbreviation then
          match unfold env (.con head arguments) with
          | .ok (.con expanded others) =>
            if expanded.same head then some false
            else behind env (.con expanded others)
          | .ok expanded => behind env expanded
          | .error .endless => none
          | .error _ => some false
        else if !info.equality then some false
        else do
          -- The type itself may occur in its constructors.
          let inside := env.assume head.name head.id ⟨info.arity, true⟩
          if ← allAdmitBy unfold behind arguments inside then
            info.constructors.allM fun constructor =>
              (env.argument? head.path constructor).elim (some true)
                fun argument => behind inside argument.asEqualityType
          else return false

def allAdmitBy (unfold : TypeEnv → Ty → Except TypeFault Ty)
    (behind : TypeEnv → Ty → Option Bool) : List Ty → TypeEnv → Option Bool
  | [], _ => some true
  | type :: rest, env => do
    if ← admitsBy unfold behind type env then
      allAdmitBy unfold behind rest env
    else return false

def fieldsAdmitBy (unfold : TypeEnv → Ty → Except TypeFault Ty)
    (behind : TypeEnv → Ty → Option Bool) :
    List (String × Ty) → TypeEnv → Option Bool
  | [], _ => some true
  | (_, type) :: rest, env => do
    if ← admitsBy unfold behind type env then
      fieldsAdmitBy unfold behind rest env
    else return false

end

/-- The test with what is hidden behind names, not deeper than `room`.  It has
no answer where more room is needed. -/
def admitsWithin (unfold : TypeEnv → Ty → Except TypeFault Ty) :
    (room : Nat) → TypeEnv → Ty → Option Bool
  | 0, _, _ => none
  | room + 1, env, type => admitsBy unfold (admitsWithin unfold room) type env

/-! ## The recursion -/

mutual

/-- Follows bindings and unfolds abbreviations, not deeper than `depth`.
`seen` are the variables being followed. -/
def instantiateTo : (depth : Nat) → TypeEnv → (seen : List String) → Store →
    Ty → Except TypeFault Ty
  | 0, _, _, _, _ => .error .endless
  | depth + 1, env, seen, store, type =>
    match type with
    | .any => .ok .any
    | .var name domain free =>
      match store.get? name with
      | none =>
        match store.domain? name with
        | some recorded => .ok (.var name (mergeDomain domain recorded) free)
        | none => .ok (.var name domain free)
      | some binding =>
        if seen.contains name then .error (.circular name binding.type)
        else instantiateTo depth env (name :: seen) store binding.type
    | .bind name domain free body => do
      return .bind name domain free (← instantiateTo depth env seen store body)
    | .record fields complete => do
      let fields ← fields.mapM fun (label, type) => do
        return (label, ← instantiateTo depth env seen store type)
      return .record fields complete
    | .arrow parameter result => do
      let parameter ← instantiateTo depth env seen store parameter
      let result ← instantiateTo depth env seen store result
      return .arrow parameter result
    | .tuple elements =>
      instantiateTo depth env seen store (simplify (.tuple elements))
    | .con head arguments => do
      let arguments ← arguments.mapM fun type =>
        instantiateTo depth env seen store type
      match env.definition? head with
      | none => return .con head arguments
      | some info =>
        match info.abbreviation? with
        | some abbreviation =>
          let abbreviation := renewAbbreviation store abbreviation
          match mergeCons (mergeTo depth env) store head arguments
              abbreviation.head abbreviation.parameters with
          | .ok (_, store) =>
            instantiateTo depth env seen store abbreviation.body
          | .error (.mismatch mismatch) =>
            .error (.expansion head.fullName mismatch)
          | .error (.fault fault) => .error fault
        | none =>
          if info.arity ≠ arguments.length then
            .error (.arity head.fullName info.arity arguments.length)
          else
            return .con
              { head with hidden := head.hidden || info.type.isHidden }
              arguments

/-- Makes two types equal, not going deeper than `depth`. -/
def mergeTo : (depth : Nat) → TypeEnv → Store → Ty → Ty → Merging
  | 0, _, _, _, _ => .error (.fault .endless)
  | depth + 1, env, store, this, other =>
    let instantiate (type : Ty) : Except MergeFault Ty :=
      (instantiateTo depth env [] store type).mapError .fault
    match this, other with
    | .any, _ => .ok (other, store)
    | .bind _ _ _ body, _ => mergeTo depth env store body other
    | .tuple elements, _ =>
      mergeTo depth env store (simplify (.tuple elements)) other
    | _, .any =>
      .ok (this, store)
    | .var name _ _, _ => do
      match ← instantiate this with
      | .var name domain free =>
        let binder := Binder.mk name domain free
        match ← instantiate other with
        | .var otherName otherDomain otherFree =>
          mergeVariables store binder ⟨otherName, otherDomain, otherFree⟩
        | .any => return (.var name domain free, store)
        | that => bindTo depth env store binder that
      | resolved =>
        let (merged, store) ← mergeTo depth env store resolved other
        -- A record that may grow is remembered as far as it is known.
        if resolved.isResolved then return (merged, store)
        else
          let last := store.chainEnd name
          let free := (store.get? last).any (·.free)
          return (merged, store.bind last merged free)
    | _, .var .. => mergeTo depth env store other this
    | .record fields complete, _ => do
      match ← instantiate other with
      | .record others othersComplete =>
        if !complete && othersComplete then
          mergeTo depth env store (.record others othersComplete) this
        else
          mergeFields (mergeTo depth env) (instantiateTo depth env []) store
            fields complete others othersComplete
      | .var name domain free =>
        mergeTo depth env store (.var name domain free) this
      | .any => mergeTo depth env store .any this
      | resolved => mismatch .notRecord this resolved
    | .arrow parameter result, _ => do
      match ← instantiate other with
      | .arrow otherParameter otherResult =>
        let (parameter, store) ←
          mergeTo depth env store parameter otherParameter
        let (result, store) ← mergeTo depth env store result otherResult
        return (.arrow parameter result, store)
      | .var name domain free =>
        mergeTo depth env store (.var name domain free) this
      | .any => mergeTo depth env store .any this
      | resolved => mismatch .notFunction this resolved
    | .con _ _, _ => do
      match ← instantiate this with
      | .con head arguments =>
        match ← instantiate other with
        | .con otherHead otherArguments =>
          mergeCons (mergeTo depth env) store head arguments
            otherHead otherArguments
        | .var name domain free =>
          mergeTo depth env store (.var name domain free) (.con head arguments)
        | .any => mergeTo depth env store .any (.con head arguments)
        | resolved => mismatch .heads (.con head arguments) resolved
      | expanded => mergeTo depth env store expanded other

/-- Binds a variable to a type that is neither a variable nor `any`. -/
def bindTo : (depth : Nat) → TypeEnv → Store → Binder → Ty → Merging
  | 0, _, _, _, _ => .error (.fault .endless)
  | depth + 1, env, store, binder, other => do
    if Table.contains (other.variableDomains false) binder.name then
      throw (.fault (.circular binder.name other))
    let self := Ty.var binder.name binder.domain binder.free
    let other := binder.mark other
    let admits := admitsWithin (fun env => instantiateTo depth env [] {})
      unfoldingRoom env
    let (other, store) ←
      if isEqualityName binder.name && admits other != some true then
        match makeEqTo depth env store other with
        | .ok (candidate, store) =>
          -- This test comes to no end if the first did not.
          match admits candidate with
          | some true => pure (candidate, store)
          | some false => mismatch .noEquality self candidate
          | none => throw (.fault .endless)
        | .error fault => throw (.fault fault)
      else pure (other, store)
    if !binder.domain.isEmpty &&
        (mergeDomain binder.domain [other]).isEmpty then
      mismatch .outsideDomain self other
    else return (other, store.bind binder.name other binder.free)

/-- Turns variables into equality variables.  What comes out need not admit
equality. -/
def makeEqTo : (depth : Nat) → TypeEnv → Store → Ty →
    Except TypeFault (Ty × Store)
  | 0, _, _, _ => .error .endless
  | depth + 1, env, store, type =>
    match type with
    | .any => .ok (.any, store)
    | .arrow parameter result => .ok (.arrow parameter result, store)
    | .var name domain free =>
      if isEqualityName name then .ok (.var name domain free, store)
      else
        match store.get? name with
        | some binding => do
          let (type, store) ← makeEqTo depth env store binding.type
          return (type, store.bind name type binding.free)
        | none =>
          let equality := Ty.var (equalityName name) domain free
          .ok (equality, store.bind name equality free)
    | .bind name domain free body => do
      let (body, store) ← makeEqTo depth env store body
      return (.bind name domain free body, store)
    | .record fields complete => do
      let (types, store) ←
        threadStore (makeEqTo depth env) store (fields.map (·.2))
      return (.record ((fields.map (·.1)).zip types) complete, store)
    | .tuple elements => makeEqTo depth env store (simplify (.tuple elements))
    | .con head arguments => do
      let kept ← do
        match ← instantiateTo depth env [] store (.con head arguments) with
        | .con expanded expandedArguments =>
          if expanded.same head then pure none
          else pure (some (Ty.con expanded expandedArguments))
        | expanded => pure (some expanded)
      match kept with
      | some expanded => makeEqTo depth env store expanded
      | none =>
        if (env.definition? head).any fun info => !info.equality then
          return (.con head arguments, store)
        else
          let (arguments, store) ←
            threadStore (makeEqTo depth env) store arguments
          return (.con head arguments, store)

end

/-- Instantiates with this room for what is declared. -/
def instantiateWithin (room : Nat) (env : TypeEnv) (store : Store)
    (type : Ty) : Except TypeFault Ty :=
  let depth := room + 2 * (type.size + store.weight) + store.size
  instantiateTo depth env [] store type

def instantiate : TypeEnv → Store → Ty → Except TypeFault Ty :=
  instantiateWithin unfoldingRoom

/-- What two types have to be so that they are equal, and the store that
makes them so. -/
def merge (env : TypeEnv) (store : Store) (left right : Ty) : Merging :=
  let depth := unfoldingRoom +
    16 * (left.size + right.size + store.weight + store.size)
  mergeTo depth env store left right

def makeEquality (env : TypeEnv) (store : Store) (type : Ty) :
    Except TypeFault (Ty × Store) :=
  let depth := unfoldingRoom + 4 * (type.size + store.weight + store.size)
  makeEqTo depth env store type

def admitsEquality (env : TypeEnv) (type : Ty) : Option Bool :=
  admitsWithin (fun env => instantiate env {}) unfoldingRoom env type

end Ty

end Sml
