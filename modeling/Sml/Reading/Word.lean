import Sml.Decimal.Nearest
import Sml.Reading.Cursor
import Sml.Syntax.Phrase

/-!
# Words, names and constants

Readers of single tokens, and the two ways of listing phrases.
-/

namespace Sml

def reservedWords : List String :=
  ["abstype", "and", "andalso", "as", "case", "datatype", "do", "else", "end",
    "eqtype", "exception", "fn", "fun", "functor", "handle", "if", "in",
    "include", "infix", "infixr", "let", "local", "nonfix", "of", "op", "open",
    "orelse", "raise", "rec", "sharing", "sig", "signature", "struct",
    "structure", "then", "type", "val", "where", "while", "withtype"]

/-- Symbols with a fixed meaning.  The equals sign is not among them, since
it also names equality. -/
def reservedSymbols : List String := [":", ":>", "|", "=>", "->", "#"]

def isReserved (name : String) : Bool :=
  reservedWords.contains name || reservedSymbols.contains name

namespace Token

def isKind (token : Token) (kind : TokenKind) : Bool :=
  token.kind == kind

def shortIdentifier? (token : Token) : Option String :=
  if token.kind = .identifier ∧ token.text.toList.contains '.' = false ∧
      isReserved token.text = false
  then some token.text else none

def longIdentifier? (token : Token) : Option LongName :=
  if token.kind = .identifier ∧ isReserved token.text = false
  then some (.ofText token.text) else none

def freeSymbol? (token : Token) : Option String :=
  if token.kind = .symbol ∧ isReserved token.text = false
  then some token.text else none

/-- A record label: an identifier, or a number that starts with neither a
zero nor a sign. -/
def label? (token : Token) : Option String :=
  token.shortIdentifier? <|>
    (if token.kind = .integer ∧
        (token.text.toList.head? ∉ [some '~', some '0'])
      then some token.text else none)

def signed (text : List Char) : Bool × List Char :=
  match text with
  | '~' :: rest => (true, rest)
  | text => (false, text)

def integer (text : List Char) : Int :=
  let (negative, digits) := signed text
  let size := ((readDigits? 10 digits).getD 0 : Nat)
  if negative then -(size : Int) else size

def real (text : List Char) : Float :=
  let (negative, text) := signed text
  let whole := text.takeWhile Char.isDigit
  let (fraction, text) :=
    match text.drop whole.length with
    | '.' :: rest =>
      let fraction := rest.takeWhile Char.isDigit
      (fraction, rest.drop fraction.length)
    | text => ([], text)
  let exponent :=
    match text with
    | [] => 0
    | _ :: rest => integer rest
  let digits := (readDigits? 10 (whole ++ fraction)).getD 0
  let size := Decimal.nearest digits (exponent - fraction.length)
  if negative then -size else size

def quoted (skip : Nat) (text : String) : List Char :=
  (text.toList.drop skip).dropLast

def constant? (token : Token) : Option (Except ReadFault Constant) :=
  match token.kind with
  | .integer =>
    let value := integer token.text.toList
    if Int64.minValue.toInt ≤ value ∧ value ≤ Int64.maxValue.toInt then
      some (.ok (.int (Int64.ofInt value)))
    else some (.error .integerRange)
  | .real => some (.ok (.real (real token.text.toList)))
  | .stringLiteral =>
    some ((unescape (quoted 1 token.text)).mapError ReadFault.escape
      |>.map fun text => .string (String.ofList text))
  | .charLiteral =>
    some (match unescape (quoted 2 token.text) with
      | .error fault => .error (.escape fault)
      | .ok [c] => .ok (.char c)
      | .ok _ => .error .charLength)
  | _ => none

end Token

namespace Reader

variable {α β : Type}

def atKind (kind : TokenKind) : Reader Bool :=
  view fun cursor => cursor.peek?.any (·.isKind kind)

def atWord (word : String) : Reader Bool :=
  view fun cursor => cursor.peek?.bind Token.name? == some word

def eatKind (kind : TokenKind) : Reader Bool := do
  if ← atKind kind then advance; return true else return false

def eatWord (word : String) : Reader Bool := do
  if ← atWord word then advance; return true else return false

def punctuation (kind : TokenKind) (text : String) : Reader Unit := do
  unless ← eatKind kind do unexpected (.word text)

def leftParen : Reader Unit := punctuation .leftParen "("

def rightParen : Reader Unit := punctuation .rightParen ")"

def rightBracket : Reader Unit := punctuation .rightBracket "]"

def rightBrace : Reader Unit := punctuation .rightBrace "\x7d"

def comma : Reader Unit := punctuation .comma ","

def semicolon : Reader Unit := punctuation .semicolon ";"

def word (text : String) : Reader Unit := do
  unless ← eatWord text do unexpected (.word text)

def token (f : Token → Option α) (expected : Expectation) :
    Reader (α × Span) := do
  match ← peek? with
  | some token =>
    match f token with
    | some value => advance; return (value, token.span)
    | none => unexpected expected
  | none => unexpected expected

def shortName : Reader (String × Span) :=
  token (fun token => token.shortIdentifier? <|> token.freeSymbol?) .identifier

def alphanumeric : Reader (String × Span) :=
  token Token.shortIdentifier? .identifier

def longName : Reader (LongName × Span) :=
  token
    (fun token =>
      token.longIdentifier? <|> token.freeSymbol?.map LongName.simple)
    .identifier

def typeVariable : Reader (String × Span) :=
  token (fun token => if token.kind = .typeVariable then some token.text
    else none) .typeVariable

def label : Reader (String × Span) := token Token.label? .label

def atConstant : Reader Bool :=
  view fun cursor => cursor.peek?.any fun token => token.constant?.isSome

def constant : Reader (Constant × Span) := do
  match ← peek? with
  | some token =>
    match token.constant? with
    | some (.ok value) => advance; return (value, token.span)
    | some (.error fault) => fail ⟨fault, [], none, some token.span, 0⟩
    | none => failHere .unexpectedToken [.constant]
  | none => failHere .unexpectedToken [.constant]

/-- The phrases after the first of a list: each is preceded by a separator,
and a separator that is missing ends the list where it was looked for. -/
def separated (item : Reader α) (separator : Reader β) : Reader (List α) := do
  let first ← item
  let rest ← many do
    let index ← view Cursor.index
    match ← attempt separator with
    | .ok _ => return some (← item)
    | .error _ => moveTo index; return none
  return first :: rest

def separatedByKind (kind : TokenKind) (item : Reader α) :
    Reader (List α) := do
  let first ← item
  let rest ← many do
    if ← eatKind kind then return some (← item) else return none
  return first :: rest

def separatedByWord (text : String) (item : Reader α) :
    Reader (List α) := do
  let first ← item
  let rest ← many do
    if ← eatWord text then return some (← item) else return none
  return first :: rest

def afterWord (text : String) (item : Reader α) : Reader (Option α) := do
  if ← eatWord text then return some (← item) else return none

def skipSemicolons : Reader Unit :=
  whileSome () fun _ => do
    if ← eatKind .semicolon then return some () else return none

def typeVariables : Reader (List String) := do
  if ← atKind .typeVariable then
    return [(← typeVariable).1]
  else if ← view fun cursor =>
      cursor.peek?.any (·.isKind .leftParen) &&
        (cursor.peekAt? 1).any (·.isKind .typeVariable) then
    advance
    let names ← separatedByKind .comma typeVariable
    rightParen
    return names.map (·.1)
  else return []

end Reader

structure Operator where
  name : String
  fixity : Fixity
  span : Span

def Reader.grouped {α : Type} (combine : Operator → α → α → α) (first : α)
    (rest : List (Operator × α)) : Reader α :=
  match groupOperators Operator.fixity combine (first :: rest.map (·.2))
      (rest.map (·.1)) with
  | .ok value => return value
  | .error (.missingOperand operator) =>
    fail ⟨.missingOperand operator.name, [], none, some operator.span, 0⟩
  | .error .malformed => fail ⟨.malformedInfix, [], none, none, 0⟩

namespace Cursor

/-- The operator that is next, if any.  The equals sign binds a pattern to
what it matches, so in patterns it is not an operator. -/
def operator? (cursor : Cursor) (allowEquals : Bool) : Option Operator := do
  let token ← cursor.peek?
  let name ← token.shortIdentifier? <|> token.freeSymbol?
  guard (allowEquals ∨ name ≠ "=")
  let fixity ← OperatorTable.operator? cursor.operators name
  return ⟨name, fixity, token.span⟩

end Cursor

end Sml
