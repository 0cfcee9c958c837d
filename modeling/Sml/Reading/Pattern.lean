import Sml.Reading.Phrases

/-!
# Reading patterns
-/

namespace Sml.Reading

open Reader

def patternOperator? : Reader (Option Operator) :=
  view (·.operator? false)

def atAtomicPattern : Reader Bool := do
  match ← peek? with
  | some token =>
    match token.kind with
    | .underscore | .leftParen | .leftBracket | .leftBrace => return true
    | .identifier =>
      return token.text == "op" ||
        (!isReserved token.text && (← patternOperator?).isNone)
    | .symbol =>
      return !isReserved token.text && token.text != "=" &&
        (← patternOperator?).isNone
    | _ => return token.constant?.isSome
  | none => return false

def patternList (nested : Phrases) (closing : TokenKind) :
    Reader (List Pat) := do
  if ← atKind closing then return []
  else separatedByKind .comma nested.pattern

/-- One field of a record pattern: `label = pattern`, or a label that is at
the same time the variable bound to the field. -/
def fieldPattern (nested : Phrases) : Reader (String × Pat) := do
  let (name, start) ← label
  if ← eatWord "=" then
    return (name, ← nested.pattern)
  let type ← afterWord ":" nested.type
  if ← eatWord "as" then
    let inner ← nested.pattern
    return (name, .layered name type inner (← spanFrom start))
  match type with
  | some type =>
    return (name, .typed (.var name start) type (← spanFrom start))
  | none => return (name, .var name start)

def fieldPatterns (nested : Phrases) : Reader (List (String × Pat) × Bool) := do
  if ← atKind .rightBrace then return ([], true)
  let (fields, complete, _) ← whileSome (([] : List (String × Pat)), true, true)
    fun (fields, complete, more) => do
      if !more then return none
      else if ← eatKind .ellipsis then
        return some (fields, false, false)
      else
        let field ← fieldPattern nested
        let more ← eatKind .comma
        return some (field :: fields, complete, more)
  return (fields.reverse, complete)

def atomicPattern (nested : Phrases) : Reader Pat := do
  let start ← currentSpan
  if ← eatKind .underscore then
    return .wildcard start
  else if ← eatKind .leftParen then
    let elements ← patternList nested .rightParen
    rightParen
    match elements with
    | [pattern] => return pattern
    | elements => return .tuple elements (← spanFrom start)
  else if ← eatKind .leftBracket then
    let elements ← patternList nested .rightBracket
    rightBracket
    return .list elements (← spanFrom start)
  else if ← eatKind .leftBrace then
    let (fields, complete) ← fieldPatterns nested
    rightBrace
    return .record fields complete (← spanFrom start)
  else if ← atConstant then
    let (value, span) ← constant
    return .const value span
  else
    let explicit ← eatWord "op"
    if !explicit && (← patternOperator?).isSome then
      failHere .bareOperator [.pattern]
    else if ← atWord "=" then
      failHere .unexpectedToken [.pattern]
    else
      let (name, span) ← longName
      return .name name (if explicit then start.merge span else span)

def appliedPattern (nested : Phrases) : Reader Pat := do
  let head ← atomicPattern nested
  if ← atAtomicPattern then
    let argument ← atomicPattern nested
    let span := head.span.merge argument.span
    match head with
    | .name name _ => return .con name argument span
    | _ => fail ⟨.appliedPattern, [], none, some span, 0⟩
  else return head

def combinePatterns (operator : Operator) (left right : Pat) : Pat :=
  let span := left.span.merge right.span
  .con (.simple operator.name) (.tuple [left, right] span) span

def operatorPattern (nested : Phrases) : Reader Pat := do
  let first ← appliedPattern nested
  let rest ← many do
    match ← patternOperator? with
    | some operator =>
      advance
      return some (operator, ← appliedPattern nested)
    | none => return none
  grouped combinePatterns first rest

/-- Tries `x as pattern` and `x : type as pattern`; anything else leaves the
cursor where it was. -/
def layeredPattern? (nested : Phrases) : Reader (Option Pat) := orBack do
  let start ← currentSpan
  let explicit ← eatWord "op"
  if !(← atKind .identifier) then return none
  else if !explicit && (← patternOperator?).isSome then return none
  else
    match ← attempt shortName with
    | .error _ => return none
    | .ok (name, _) =>
      match ← attempt (afterWord ":" nested.type) with
      | .error _ => return none
      | .ok type =>
        if ← eatWord "as" then
          let inner ← nested.pattern
          return some (.layered name type inner (← spanFrom start))
        else return none

def pattern (nested : Phrases) : Reader Pat := do
  match ← layeredPattern? nested with
  | some layered => return layered
  | none =>
    let first ← operatorPattern nested
    whileSome first fun inner => do
      if ← eatWord ":" then
        let type ← nested.type
        return some (.typed inner type (inner.span.merge type.span))
      else return none

end Sml.Reading
