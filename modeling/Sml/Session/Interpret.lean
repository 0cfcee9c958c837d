import Sml.Elaboration.Program
import Sml.Evaluation.Eval
import Sml.Lexical.Scan
import Sml.Reading.Program
import Sml.Scope.Initial
import Sml.Session.Prelude
import Sml.Source.Comment

/-!
# Sessions

A session reads, elaborates and evaluates one input after the other, each in
the scope that the earlier ones left.  When an exception escapes the scope
stays as it was; what was printed and stored remains.
-/

namespace Sml

structure Session where
  tree : ScopeTree
  scope : Scope

structure Options where
  skipElaboration : Bool := false
  skipEvaluation : Bool := false
  /-- Settle overloading at every binding. -/
  strict : Bool := false
deriving DecidableEq, Repr

inductive InputError where
  | comment (error : UnterminatedComment)
  | lexical (error : LexError)
  | read (error : ReadError)
  | elaboration (error : ElabError)
  | evaluation (error : EvalError)
  | outOfSteps

/-- The text of an error.  A reading error may point outside its source and
then has none. -/
def InputError.message? : InputError → Option String
  | .comment error => some error.message
  | .lexical error => some error.message
  | .read error => error.message?
  | .elaboration error => some error.message
  | .evaluation error => some error.message
  | .outOfSteps => some "Evaluation ran out of steps"

structure Reply where
  scope : Scope
  raised : Option Value := none
  warnings : List Warning := []

def tokensOf (source : String) : Except InputError (List Token) := do
  let stripped ← (stripComments source).mapError .comment
  (tokenize stripped).mapError .lexical

def readTokens (tokens : List Token) (operators : OperatorTable) :
    Except InputError Program :=
  match Reading.readProgram (Reading.start tokens operators) with
  | .ok program _ => .ok program
  | .error error _ => .error (.read error)

def elaborateInput (options : Options) (program : Program)
    (session : Session) :
    Except InputError (Scope × List Warning) × ScopeTree :=
  if options.skipElaboration then (.ok (session.scope, []), session.tree)
  else
    match elabProgram session.scope program
        (.start session.tree session.scope options.strict) with
    | .ok scope state => (.ok (scope, state.warnings.reverse), state.tree)
    | .error error state => (.error (.elaboration error), state.tree)

def interpretProgram (steps : Nat) (options : Options) (program : Program)
    (session : Session) : Except InputError Reply × ScopeTree :=
  match elaborateInput options program session with
  | (.error error, tree) => (.error error, tree)
  | (.ok (scope, warnings), tree) =>
    if options.skipEvaluation then (.ok { scope, warnings }, tree)
    else
      match evalProgram steps scope program tree with
      | .ok scope tree => (.ok { scope, warnings }, tree)
      | .error (.raised exn) tree =>
        (.ok { scope := session.scope, raised := some exn, warnings }, tree)
      | .error (.fault error) tree => (.error (.evaluation error), tree)
      | .error .outOfSteps tree => (.error .outOfSteps, tree)

def interpretTokens (steps : Nat) (options : Options) (tokens : List Token)
    (session : Session) : Except InputError Reply × ScopeTree :=
  match readTokens tokens (session.tree.operators session.scope) with
  | .error error => (.error error, session.tree)
  | .ok program => interpretProgram steps options program session

/-- Interprets an input.  The tree that comes back holds what was printed and
stored also when there was an error. -/
def interpret (steps : Nat) (options : Options) (source : String)
    (session : Session) : Except InputError Reply × ScopeTree :=
  match tokensOf source with
  | .error error => (.error error, session.tree)
  | .ok tokens => interpretTokens steps options tokens session

namespace Session

def empty : Session := ⟨{}, .root⟩

def basic : Session := ⟨Initial.tree, .root⟩

def load (steps : Nat) (source : String) (session : Session) : Session :=
  match interpret steps {} source session with
  | (.ok reply, tree) => ⟨tree, reply.scope⟩
  | (.error _, tree) => ⟨tree, session.scope⟩

def initial : Session := basic.load 10000 preludeText

end Session

end Sml
