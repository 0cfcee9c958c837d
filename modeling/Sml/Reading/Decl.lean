import Sml.Reading.Pattern

/-!
# Reading declarations of the core

A fixity declaration changes the operators in force from there on.  What
`local` declares before `in` ends with it; what it declares after `in` stays.
-/

namespace Sml.Reading

open Reader

def declarationWords : List String :=
  ["val", "fun", "type", "datatype", "exception", "local", "open", "infix",
    "infixr", "nonfix", "structure", "signature", "functor"]

def atDeclaration : Reader Bool :=
  view fun cursor =>
    match cursor.peek?.bind Token.name? with
    | some name => declarationWords.contains name
    | none => false

def valBind (nested : Phrases) : Reader (ValBind Expr) := do
  let start ← currentSpan
  let _ ← eatWord "rec"
  let pattern ← nested.pattern
  word "="
  let body ← nested.expr
  return ⟨pattern, body, ← spanFrom start⟩

def valDecl (nested : Phrases) (start : Span) : Reader Decl := do
  word "val"
  let parameters ← typeVariables
  let recursive ← eatWord "rec"
  let bindings ← separatedByWord "and" (valBind nested)
  return .val recursive parameters bindings (← spanFrom start)

/-! ## Functions by clauses -/

inductive HeadItem where
  | pattern (pattern : Pat)
  | operator (name : String)

def headItems (nested : Phrases) : Reader (List HeadItem) := many do
  if (← atWord "=") || (← atWord ":") then return none
  else
    match ← patternOperator? with
    | some operator =>
      advance
      return some (.operator operator.name)
    | none =>
      if ← atAtomicPattern then
        return some (.pattern (← atomicPattern nested))
      else return none

def headPatterns : List HeadItem → Reader (List Pat)
  | [] => return []
  | .pattern pattern :: rest => return pattern :: (← headPatterns rest)
  | .operator name :: _ => do
    fail { (← get).errorHere .malformedClause [] with
      found := some (.operator name) }

def isOperatorApplied (operators : OperatorTable) (constructor : LongName)
    (argument : Pat) : Bool :=
  constructor.isSimple &&
    (OperatorTable.operator? operators constructor.name).isSome &&
    match argument with
    | .tuple [_, _] _ => true
    | _ => false

/-- The name and the patterns of a clause: `p₁ op p₂`, `(p₁ op p₂) p₃ …` or
`f p₁ …`. -/
def clauseHead (start : Span) (items : List HeadItem) :
    Reader (String × List Pat) := do
  let malformed : Reader (String × List Pat) := do
    fail ⟨.malformedClause, [], none, some (← spanFrom start), 0⟩
  match items with
  | [.pattern left, .operator operator, .pattern right] =>
    return (operator, [.tuple [left, right] (left.span.merge right.span)])
  | .pattern (.con constructor argument _) :: rest =>
    if isOperatorApplied (← view Cursor.operators) constructor argument then
      return (constructor.name, argument :: (← headPatterns rest))
    else malformed
  | .pattern (.name name _) :: rest =>
    if name.isSimple && !rest.isEmpty then
      return (name.name, ← headPatterns rest)
    else malformed
  | _ => malformed

def clause (nested : Phrases) : Reader (Clause Expr) := do
  let start ← currentSpan
  let items ← headItems nested
  let (name, patterns) ← clauseHead start items
  let result ← afterWord ":" nested.type
  word "="
  let body ← nested.expr
  return ⟨name, patterns, result, body, ← spanFrom start⟩

def clauseFault? (binding : FunBind Expr) (clause : Clause Expr) :
    Option ReadFault :=
  if clause.name ≠ binding.name then
    some (.clauseNames binding.name clause.name)
  else if clause.patterns.length ≠ binding.arity then
    some (.clauseArity binding.name)
  else none

def funBind (nested : Phrases) : Reader (FunBind Expr) := do
  let start ← currentSpan
  let clauses ← separatedByWord "|" (clause nested)
  let binding : FunBind Expr := ⟨clauses, ← spanFrom start⟩
  for clause in clauses do
    match clauseFault? binding clause with
    | some fault => fail ⟨fault, [], none, some clause.span, 0⟩
    | none => pure ()
  return binding

def funDecl (nested : Phrases) (start : Span) : Reader Decl := do
  word "fun"
  let parameters ← typeVariables
  let bindings ← separatedByWord "and" (funBind nested)
  return .functions parameters bindings (← spanFrom start)

/-! ## Types, datatypes and exceptions -/

def typeBind (nested : Phrases) : Reader TypeBind := do
  let start ← currentSpan
  let parameters ← typeVariables
  let (name, _) ← alphanumeric
  word "="
  let type ← nested.type
  return ⟨parameters, name, type, ← spanFrom start⟩

def conBind (nested : Phrases) : Reader ConBind := do
  let start ← currentSpan
  let _ ← eatWord "op"
  let (name, _) ← shortName
  let argument ← afterWord "of" nested.type
  return ⟨name, argument, ← spanFrom start⟩

def datBind (nested : Phrases) : Reader DatBind := do
  let start ← currentSpan
  let parameters ← typeVariables
  let (name, _) ← alphanumeric
  word "="
  let constructors ← separatedByWord "|" (conBind nested)
  return ⟨parameters, name, constructors, ← spanFrom start⟩

/-- After `datatype`: `name = datatype longname`, if that is what follows. -/
def replication? : Reader (Option (String × LongName)) := do
  let isReplication ← view fun cursor =>
    cursor.peek?.any (·.isKind .identifier) &&
      (cursor.peekAt? 1).bind Token.name? == some "=" &&
      (cursor.peekAt? 2).bind Token.name? == some "datatype"
  if isReplication then
    let (name, _) ← alphanumeric
    word "="
    word "datatype"
    let (target, _) ← longName
    return some (name, target)
  else return none

def datatypeDecl (nested : Phrases) (start : Span) : Reader Decl := do
  word "datatype"
  match ← replication? with
  | some (name, target) => return .replicate name target (← spanFrom start)
  | none =>
    let bindings ← separatedByWord "and" (datBind nested)
    if ← atWord "withtype" then failHere .withtype []
    else return .datatypes bindings (← spanFrom start)

def exnBind (nested : Phrases) : Reader ExnBind := do
  let start ← currentSpan
  let _ ← eatWord "op"
  let (name, _) ← shortName
  if ← eatWord "=" then
    let _ ← eatWord "op"
    let (target, _) ← longName
    return .alias name target (← spanFrom start)
  else
    let argument ← afterWord "of" nested.type
    return .new name argument (← spanFrom start)

/-! ## Scopes and fixity -/

def localDecl (nested : Phrases) (start : Span) : Reader Decl := do
  word "local"
  let before ← view Cursor.operators
  let hidden ← nested.decl
  word "in"
  let between ← view Cursor.operators
  let body ← nested.decl
  word "end"
  let after ← view Cursor.operators
  restoreOperators (Table.override before (OperatorTable.changes between after))
  return .localIn hidden body (← spanFrom start)

def openDecl (start : Span) : Reader Decl := do
  word "open"
  let (first, _) ← longName
  let rest ← many do
    if ← view fun cursor => cursor.peek?.any fun token =>
        token.longIdentifier?.isSome then
      return some (← longName).1
    else return none
  return .opened (first :: rest) (← spanFrom start)

def precedence? (text : String) : Option Nat :=
  match readDigits? 10 text.toList with
  | some value => if value ≤ 9 then some value else none
  | none => none

def precedence : Reader Nat := do
  match ← peek? with
  | some token =>
    if token.kind = .integer then
      match precedence? token.text with
      | some value => advance; return value
      | none => failHere .precedence []
    else return 0
  | none => return 0

def names : Reader (List String) := many do
  match ← view fun cursor => cursor.peek?.bind fun token =>
      token.shortIdentifier? <|> token.freeSymbol? with
  | some name => advance; return some name
  | none => return none

def fixityDecl (keyword : String) (start : Span) : Reader Decl := do
  word keyword
  let precedence ← if keyword = "nonfix" then pure 0 else precedence
  let names ← names
  if names.isEmpty then failHere .unexpectedToken [.identifier]
  else
    let fixity : Fixity :=
      if keyword = "infix" then .left precedence
      else if keyword = "infixr" then .right precedence
      else .nonfix
    modify fun cursor => { cursor with
      operators := names.foldl (fun table name => Table.insert table name fixity)
        cursor.operators }
    return .fixity fixity names (← spanFrom start)

end Sml.Reading
