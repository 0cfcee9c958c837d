import Sml.Evaluation.Error
import Sml.Scope.Tree

/-!
# Matching values against patterns
-/

namespace Sml

abbrev Bindings := List (String × Value)

/-- Whether a pattern matched, and what it bound until it did or failed. -/
structure MatchResult where
  matched : Bool
  bound : Bindings

structure MatchEnv where
  constructor? : LongName → Option Value
  load? : Nat → Option Value

namespace ScopeTree

def matchEnv (tree : ScopeTree) (scope : Scope) : MatchEnv where
  constructor? name :=
    ((tree.dynamicValue? scope name.path name.name).filter
      (·.status.isConstructor)).map (·.value)
  load? := tree.load?

end ScopeTree

/-- Whether a constant is the value.  Reals are never matched. -/
def Constant.isValue : Constant → Value → Bool
  | .int expected, .int value => expected == value
  | .string expected, .string value => expected == value
  | .char expected, .char value => expected == value
  | _, _ => false

def Value.sameNullary : Value → Value → Bool
  | .constructed expected none, .constructed name none => expected == name
  | .exn _ expected none, .exn _ id none => expected == id
  | _, _ => false

namespace Pat

variable (env : MatchEnv)

mutual

def matchFrom : Pat → Value → Bindings → Except EvalError MatchResult
  | .wildcard _, _, bound => .ok ⟨true, bound⟩
  | .const constant _, value, bound => .ok ⟨constant.isValue value, bound⟩
  | .name long span, value, bound =>
    match env.constructor? long with
    | some constructor => .ok ⟨constructor.sameNullary value, bound⟩
    | none =>
      if long.isSimple then .ok ⟨true, bound ++ [(long.name, value)]⟩
      else .error { cause := .undefined .constructor long.text, span }
  | .record fields _ _, value, bound =>
    match value with
    | .record values => matchFields fields values bound
    | _ => .ok ⟨false, bound⟩
  | .tuple elements _, value, bound =>
    match value.asTuple? with
    | some values =>
      if values.length = elements.length then matchList elements values bound
      else .ok ⟨false, bound⟩
    | none => .ok ⟨false, bound⟩
  | .list elements _, value, bound =>
    match value.elements? elements.length with
    | some values => matchList elements values bound
    | none => .ok ⟨false, bound⟩
  | .con long argument span, value, bound =>
    match env.constructor? long with
    | none => .error { cause := .undefined .constructor long.text, span }
    | some constructor =>
      match constructor, value with
      | .constructor expected, .constructed actual (some inside) =>
        if expected = actual then matchFrom argument inside bound
        else .ok ⟨false, bound⟩
      | .exnConstructor _ expected, .exn _ id (some inside) =>
        if expected = id then matchFrom argument inside bound
        else .ok ⟨false, bound⟩
      | .makeRef, .reference address =>
        match env.load? address with
        | some inside => matchFrom argument inside bound
        | none => .error { cause := .dangling address }
      | _, _ => .ok ⟨false, bound⟩
  | .typed pattern _ _, value, bound => matchFrom pattern value bound
  | .layered whole _ pattern _, value, bound => do
    let result ← matchFrom pattern value bound
    if result.matched then return ⟨true, result.bound ++ [(whole, value)]⟩
    else return result

def matchList : List Pat → List Value → Bindings → Except EvalError MatchResult
  | pattern :: rest, value :: values, bound => do
    let result ← matchFrom pattern value bound
    if result.matched then matchList rest values result.bound
    else return result
  | _, _, bound => .ok ⟨true, bound⟩

def matchFields : List (String × Pat) → List (String × Value) → Bindings →
    Except EvalError MatchResult
  | [], _, bound => .ok ⟨true, bound⟩
  | (label, pattern) :: rest, values, bound =>
    match Table.get? values label with
    | none => .ok ⟨false, bound⟩
    | some value => do
      let result ← matchFrom pattern value bound
      if result.matched then matchFields rest values result.bound
      else return result

end

def matchValue (pattern : Pat) (value : Value) : Except EvalError MatchResult :=
  matchFrom env pattern value []

end Pat

def firstRule? (env : MatchEnv) (value : Value) :
    List (Rule Expr) → Except EvalError (Option (Bindings × Expr))
  | [] => .ok none
  | rule :: rest => do
    let result ← rule.pattern.matchValue env value
    if result.matched then return some (result.bound, rule.body)
    else firstRule? env value rest

end Sml
