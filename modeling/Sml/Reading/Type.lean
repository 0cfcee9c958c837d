import Sml.Reading.Phrases

/-!
# Reading types

Arrows group to the right and bind least, then come products, then type
constructors written after their arguments.
-/

namespace Sml.Reading

open Reader

def atTypeConstructor : Reader Bool :=
  view fun cursor => cursor.peek?.any fun token =>
    token.longIdentifier?.isSome

/-- A type that is not applied.  Types listed in parentheses are only the
arguments of a type constructor, so all of them are given. -/
def atomicType (nested : Phrases) : Reader (List TypeExpr) := do
  let start ← currentSpan
  if ← atKind .typeVariable then
    let (name, span) ← typeVariable
    return [.var name span]
  else if ← eatKind .leftBrace then
    let fields ←
      if ← atKind .rightBrace then pure []
      else separated (do
        let (name, _) ← label
        word ":"
        return (name, ← nested.type)) comma
    rightBrace
    return [.record fields (← spanFrom start)]
  else if ← eatKind .leftParen then
    let elements ← separatedByKind .comma nested.type
    rightParen
    return elements
  else if ← atTypeConstructor then
    let (name, span) ← longName
    return [.con name [] span]
  else failHere .unexpectedToken [.type]

def appliedType (nested : Phrases) : Reader TypeExpr := do
  let arguments ← atomicType nested
  let start := (arguments.head?.map TypeExpr.span).getD {}
  let applied ← whileSome arguments fun arguments => do
    if ← atTypeConstructor then
      let (name, stop) ← longName
      return some [.con name arguments (start.merge stop)]
    else return none
  match applied with
  | [type] => return type
  | _ => throw ((← get).errorHere .typeSequence [])

def productType (nested : Phrases) : Reader TypeExpr := do
  let elements ← separatedByWord "*" (appliedType nested)
  match elements with
  | [type] => return type
  | elements =>
    let start := (elements.head?.map TypeExpr.span).getD {}
    return .tuple elements (← spanFrom start)

def type (nested : Phrases) : Reader TypeExpr := do
  let parameter ← productType nested
  if ← eatWord "->" then
    let result ← nested.type
    return .arrow parameter result (parameter.span.merge result.span)
  else return parameter

end Sml.Reading
