import Sml.Dynamic.Basis
import Sml.Static.Merge

/-!
# Scopes

A scope is a path of frames from the innermost to the root, given by their
numbers in a scope tree.  A name is looked up along the path.  Frames carry a
level; a look-up may be limited to the frames before the first one whose level
is below a limit, which tells what a group of declarations has declared from
what was there before.

The tree also holds what all its scopes share: the cells of references, the
counters that give types and exceptions their numbers, and the output.
-/

namespace Sml

/-- Numbers of frames, innermost first. -/
abbrev Scope := List Nat

structure Frame where
  level : Nat := 0
  statics : StaticBasis := {}
  dynamics : DynamicBasis := {}
  assumptions : List ((String × Nat) × Assumption) := []
  fixity : OperatorTable := []
  /-- Whether a name may be bound anew; constructors may not. -/
  rebind : Table Bool := []
  declared : Table Unit := []
  context : Option (Store × NameSupply) := none

structure ScopeTree where
  frames : Array Frame := #[{}]
  memory : Array Value := #[]
  typeIds : Table Nat := []
  exceptionIds : Nat := 0
  output : String := ""

structure Changes where
  statics : StaticBasis := {}
  dynamics : DynamicBasis := {}
  fixity : OperatorTable := []
  rebind : Table Bool := []

structure UnknownLevel where
  level : Nat
deriving DecidableEq, Repr

def UnknownLevel.message (fault : UnknownLevel) : String :=
  "state with id " ++ toString fault.level ++ " does not exist"

namespace Scope

def root : Scope := [0]

end Scope

namespace ScopeTree

def frame (tree : ScopeTree) (number : Nat) : Frame :=
  tree.frames[number]?.getD {}

def level (tree : ScopeTree) : Scope → Nat
  | [] => 0
  | number :: _ => (tree.frame number).level

/-! ## New frames -/

def push (tree : ScopeTree) (scope : Scope) (frame : Frame) :
    Scope × ScopeTree :=
  (tree.frames.size :: scope, { tree with frames := tree.frames.push frame })

def nestedAt (tree : ScopeTree) (scope : Scope) (level : Nat) :
    Scope × ScopeTree :=
  tree.push scope { level }

def nested (tree : ScopeTree) (scope : Scope) : Scope × ScopeTree :=
  tree.nestedAt scope (tree.level scope + 1)

def withChanges (tree : ScopeTree) (scope : Scope) (changes : Changes) :
    Scope × ScopeTree :=
  tree.push scope
    { level := tree.level scope + 1
      statics := changes.statics
      dynamics := changes.dynamics
      fixity := changes.fixity
      rebind := changes.rebind }

/-! ## Looking up -/

section Find

variable {α : Type} (tree : ScopeTree) (limit : Nat) (find : Frame → Option α)

/-- What is found first in the frames before one below the limit. -/
def findOuter? : Scope → Option α
  | [] => none
  | number :: rest =>
    let frame := tree.frame number
    if frame.level < limit then none
    else
      match find frame with
      | some found => some found
      | none => findOuter? rest

/-- What is found first in the innermost frame or, before one below the
limit, in the frames around it. -/
def find? : Scope → Option α
  | [] => none
  | number :: rest =>
    match find (tree.frame number) with
    | some found => some found
    | none => tree.findOuter? limit find rest

end Find

def visible (tree : ScopeTree) (limit : Nat) : Scope → List Frame
  | [] => []
  | number :: rest =>
    tree.frame number ::
      (rest.map tree.frame).takeWhile fun frame => limit ≤ frame.level

private def wanted {α : Type} (pending : α → Bool) (filter : Option Bool)
    (found : Option α) : Option α :=
  found.filter fun entry => filter.all (pending entry == ·)

variable (tree : ScopeTree) (scope : Scope)

/-- The value of a name, or only one that is pending, or is not. -/
def staticValueWhere? (filter : Option Bool) (limit : Nat) (name : String) :
    Option StaticValue :=
  tree.find? limit (fun frame =>
    wanted StaticValue.pending filter (Table.get? frame.statics.values name))
    scope

def staticTypeWhere? (filter : Option Bool) (limit : Nat) (name : String) :
    Option TypeInfo :=
  tree.find? limit (fun frame =>
    wanted TypeInfo.pending filter (Table.get? frame.statics.types name))
    scope

def dynamicValueWhere? (filter : Option Bool) (limit : Nat) (name : String) :
    Option DynamicValue :=
  tree.find? limit (fun frame =>
    wanted DynamicValue.pending filter (Table.get? frame.dynamics.values name))
    scope

def dynamicTypeWhere? (filter : Option Bool) (limit : Nat) (name : String) :
    Option DynamicType :=
  tree.find? limit (fun frame =>
    wanted DynamicType.pending filter (Table.get? frame.dynamics.types name))
    scope

def staticSignature? (name : String) : Option StaticBasis :=
  tree.find? 0 (fun frame => Table.get? frame.statics.signatures name) scope

def staticFunctor? (name : String) : Option StaticFunctor :=
  tree.find? 0 (fun frame => Table.get? frame.statics.functors name) scope

def staticStructure? : (path : List String) → Option StaticBasis
  | [] => none
  | first :: rest => do
    let found ← tree.find? 0
      (fun frame => Table.get? frame.statics.structures first) scope
    match rest with
    | [] => some found
    | _ => StaticBasis.findIn found.structures rest

def staticValue? (path : List String) (name : String) : Option StaticValue :=
  match path with
  | [] => tree.find? 0 (fun frame => Table.get? frame.statics.values name) scope
  | _ => do Table.get? (← tree.staticStructure? scope path).values name

def staticType? (path : List String) (name : String) : Option TypeInfo :=
  match path with
  | [] => tree.find? 0 (fun frame => Table.get? frame.statics.types name) scope
  | _ => do Table.get? (← tree.staticStructure? scope path).types name

def assumption? (name : String) (id : Nat) : Option Assumption :=
  tree.find? 0 (fun frame => frame.assumptions.lookup (name, id)) scope

def typeEnv : TypeEnv where
  type? := tree.staticType? scope
  value? := tree.staticValue? scope
  assumed? := tree.assumption? scope

def dynamicSignature? (name : String) : Option Interface :=
  tree.find? 0 (fun frame => Table.get? frame.dynamics.signatures name) scope

def dynamicFunctor? (name : String) : Option DynamicFunctor :=
  tree.find? 0 (fun frame => Table.get? frame.dynamics.functors name) scope

def dynamicStructure? : (path : List String) → Option DynamicBasis
  | [] => none
  | first :: rest => do
    let found ← tree.find? 0
      (fun frame => Table.get? frame.dynamics.structures first) scope
    match rest with
    | [] => some found
    | _ => DynamicBasis.findIn found.structures rest

def dynamicValue? (path : List String) (name : String) : Option DynamicValue :=
  match path with
  | [] =>
    tree.find? 0 (fun frame => Table.get? frame.dynamics.values name) scope
  | _ => do Table.get? (← tree.dynamicStructure? scope path).values name

def fixity? (limit : Nat) (name : String) : Option Fixity :=
  tree.find? limit (fun frame => Table.get? frame.fixity name) scope

def operators : OperatorTable :=
  (tree.visible 0 scope).foldl
    (fun table frame => Table.orElse table frame.fixity) []

def mayRebind (name : String) : Bool :=
  (tree.find? 0 (fun frame => Table.get? frame.rebind name) scope).getD true

def declaredNames (limit : Nat) : List String :=
  Table.keys <| (tree.visible limit scope).foldl
    (fun table frame => Table.orElse table frame.declared) []

def context : Store × NameSupply :=
  (tree.find? 0 Frame.context scope).getD ({}, {})

/-- What the frames of a scope down to the limit declare, inner entries
first and nothing that is pending. -/
def changesSince (limit : Nat) : Changes :=
  (tree.visible limit scope).foldl
    (fun changes frame =>
      { statics := changes.statics.orElse frame.statics.settled
        dynamics := changes.dynamics.orElse frame.dynamics.settled
        fixity := Table.orElse changes.fixity frame.fixity
        rebind := Table.orElse changes.rebind frame.rebind })
    {}

end ScopeTree

/-! ## Writing into a frame -/

namespace Frame

/-- A constructor may not be bound anew. -/
def setStaticValue (name : String) (value : StaticValue) (frame : Frame) :
    Frame :=
  { frame with
    rebind :=
      if value.status.isConstructor then Table.insert frame.rebind name false
      else frame.rebind
    statics.values := Table.insert frame.statics.values name value }

def setStaticType (name : String) (info : TypeInfo) (frame : Frame) : Frame :=
  { frame with statics.types := Table.insert frame.statics.types name info }

def setStaticStructure (name : String) (basis : StaticBasis) (frame : Frame) :
    Frame :=
  { frame with
    statics.structures := Table.insert frame.statics.structures name basis }

def setStaticSignature (name : String) (basis : StaticBasis) (frame : Frame) :
    Frame :=
  { frame with
    statics.signatures := Table.insert frame.statics.signatures name basis }

def setStaticFunctor (name : String) (functor : StaticFunctor)
    (frame : Frame) : Frame :=
  { frame with
    statics.functors := Table.insert frame.statics.functors name functor }

def installStatics (basis : StaticBasis) (frame : Frame) : Frame :=
  let frame := { frame with
    statics := frame.statics.override { basis with values := [] } }
  basis.values.foldl (fun frame entry => frame.setStaticValue entry.1 entry.2)
    frame

def assume (name : String) (id : Nat) (what : Assumption) (frame : Frame) :
    Frame :=
  { frame with assumptions := ((name, id), what) :: frame.assumptions }

def setDynamicValue (name : String) (value : DynamicValue) (frame : Frame) :
    Frame :=
  { frame with
    rebind := Table.insert frame.rebind name (!value.status.isConstructor)
    declared := Table.insert frame.declared name ()
    dynamics.values := Table.insert frame.dynamics.values name value }

def setDynamicType (name : String) (type : DynamicType) (frame : Frame) :
    Frame :=
  { frame with
    declared := Table.insert frame.declared name ()
    dynamics.types := Table.insert frame.dynamics.types name type }

def setDynamicStructure (name : String) (basis : DynamicBasis)
    (frame : Frame) : Frame :=
  { frame with
    dynamics.structures := Table.insert frame.dynamics.structures name basis }

def setDynamicSignature (name : String) (interface : Interface)
    (frame : Frame) : Frame :=
  { frame with
    dynamics.signatures :=
      Table.insert frame.dynamics.signatures name interface }

def setDynamicFunctor (name : String) (functor : DynamicFunctor)
    (frame : Frame) : Frame :=
  { frame with
    dynamics.functors := Table.insert frame.dynamics.functors name functor }

def installDynamics (basis : DynamicBasis) (frame : Frame) : Frame :=
  let frame := basis.types.foldl
    (fun frame entry => frame.setDynamicType entry.1 entry.2) frame
  let frame := basis.values.foldl
    (fun frame entry => frame.setDynamicValue entry.1 entry.2) frame
  { frame with
    dynamics.structures :=
      Table.override frame.dynamics.structures basis.structures
    dynamics.signatures :=
      Table.override frame.dynamics.signatures basis.signatures
    dynamics.functors :=
      Table.override frame.dynamics.functors basis.functors }

def setFixity (name : String) (fixity : Fixity) (frame : Frame) : Frame :=
  { frame with fixity := Table.insert frame.fixity name fixity }

end Frame

namespace ScopeTree

variable (tree : ScopeTree) (scope : Scope)

def modifyFrame (number : Nat) (f : Frame → Frame) : ScopeTree :=
  { tree with frames := tree.frames.modify number f }

def write (f : Frame → Frame) : ScopeTree :=
  match scope with
  | [] => tree
  | number :: _ => tree.modifyFrame number f

def frameAt? (level : Nat) : Option Nat :=
  scope.find? fun number => (tree.frame number).level == level

def writeAt (level : Option Nat) (f : Frame → Frame) :
    Except UnknownLevel ScopeTree :=
  match level with
  | none => .ok (tree.write scope f)
  | some level =>
    match tree.frameAt? scope level with
    | some number => .ok (tree.modifyFrame number f)
    | none => .error ⟨level⟩

/-! ## What scopes share -/

def peekTypeId (name : String) : Nat :=
  (Table.get? tree.typeIds name).getD 0

def newTypeId (name : String) : Nat × ScopeTree :=
  let id := tree.peekTypeId name
  (id, { tree with typeIds := Table.insert tree.typeIds name (id + 1) })

def newExceptionId : Nat × ScopeTree :=
  (tree.exceptionIds, { tree with exceptionIds := tree.exceptionIds + 1 })

def allocate (value : Value) : Nat × ScopeTree :=
  (tree.memory.size, { tree with memory := tree.memory.push value })

def load? (address : Nat) : Option Value :=
  tree.memory[address]?

def store? (address : Nat) (value : Value) : Option ScopeTree :=
  if address < tree.memory.size then
    some { tree with memory := tree.memory.set! address value }
  else none

def print (text : String) : ScopeTree :=
  { tree with output := tree.output ++ text }

def takeOutput : String × ScopeTree :=
  (tree.output, { tree with output := "" })

end ScopeTree

end Sml
