import Sml.Reading.Expr
import Sml.Reading.Module
import Sml.Reading.Type

/-!
# Reading programs

The readers of nested phrases are put together here.  A phrase holds at least
one token before any phrase nested in it, so phrases nest no deeper than
there are tokens.  A program that cannot be read is reported by the failure
furthest into its tokens.
-/

namespace Sml.Reading

open Reader

def declaration (nested : Phrases) : Reader Decl := do
  let start ← currentSpan
  match (← peek?).bind Token.name? with
  | some "val" => valDecl nested start
  | some "fun" => funDecl nested start
  | some "type" =>
    word "type"
    let bindings ← separatedByWord "and" (typeBind nested)
    return .types bindings (← spanFrom start)
  | some "datatype" => datatypeDecl nested start
  | some "exception" =>
    word "exception"
    let bindings ← separatedByWord "and" (exnBind nested)
    return .exceptions bindings (← spanFrom start)
  | some "local" => localDecl nested start
  | some "open" => openDecl start
  | some "infix" => fixityDecl "infix" start
  | some "infixr" => fixityDecl "infixr" start
  | some "nonfix" => fixityDecl "nonfix" start
  | some "structure" => structureDecl nested start
  | some "signature" => signatureDecl nested start
  | some "functor" => functorDecl nested start
  | _ => failHere .unexpectedToken [.declaration]

def declarations (nested : Phrases) : Reader Decl := do
  let start ← currentSpan
  let items ← many do
    skipSemicolons
    if ← atDeclaration then return some (← declaration nested)
    else return none
  match items with
  | [item] => return item
  | items => return .seq items (← spanFrom start)

/-- The readers of phrases in which others nest `depth` deep. -/
def phrases : (depth : Nat) → Phrases
  | 0 => .none
  | depth + 1 =>
    { type := fun cursor => type (phrases depth) cursor
      pattern := fun cursor => pattern (phrases depth) cursor
      expr := fun cursor => expr (phrases depth) cursor
      decl := fun cursor => declarations (phrases depth) cursor
      strExp := fun cursor => strExp (phrases depth) cursor
      sigExp := fun cursor => sigExp (phrases depth) cursor }

def topLevel (nested : Phrases) : Reader (Option Decl) := do
  skipSemicolons
  if (← peek?).isNone then return none
  else if ← atDeclaration then return some (← declaration nested)
  else
    let body ← nested.expr
    let span := body.span
    if (← peek?).isSome && !(← atKind .semicolon) then
      failHere .unexpectedToken [.word ";"]
    else
      return some (.val false [] [⟨.var "it" span, body, span⟩] span)

def program (nested : Phrases) : Reader Program := do
  return ⟨← many (topLevel nested)⟩

def start (tokens : List Token) (operators : OperatorTable) : Cursor :=
  { tokens := tokens.toArray, operators }

def read {α : Type} (select : Phrases → Reader α) (cursor : Cursor) :
    EStateM.Result ReadError Cursor α :=
  select (phrases (cursor.tokens.size + 1)) cursor

def readProgram (cursor : Cursor) :
    EStateM.Result ReadError Cursor Program :=
  match program (phrases (cursor.tokens.size + 1)) cursor with
  | .ok result cursor =>
    if cursor.index < cursor.tokens.size then
      .error (cursor.furthest.getD (cursor.errorHere .unexpectedToken []))
        cursor
    else .ok result cursor
  | .error error cursor => .error (cursor.furthest.getD error) cursor

end Sml.Reading
