import Sml.Reading.Phrases

/-!
# Reading expressions

From loosest to tightest: the forms that begin with a keyword and reach as
far to the right as they can, then `handle`, `orelse`, `andalso`, types,
operators and application.
-/

namespace Sml.Reading

open Reader

def exprOperator? : Reader (Option Operator) :=
  view (·.operator? true)

def keywordForms : List String := ["fn", "case", "if", "while", "raise"]

def atKeywordForm : Reader Bool :=
  view fun cursor =>
    match cursor.peek?.bind Token.name? with
    | some name => keywordForms.contains name
    | none => false

def matchRules (nested : Phrases) : Reader (Match Expr) := do
  let start ← currentSpan
  let rules ← separated (do
    let pattern ← nested.pattern
    word "=>"
    return (⟨pattern, ← nested.expr⟩ : Rule Expr)) (word "|")
  return ⟨rules, ← spanFrom start⟩

def keywordForm (nested : Phrases) : Reader Expr := do
  let start ← currentSpan
  if ← eatWord "fn" then
    let rules ← matchRules nested
    return .fn rules (← spanFrom start)
  else if ← eatWord "case" then
    let scrutinee ← nested.expr
    word "of"
    let rules ← matchRules nested
    return .caseOf scrutinee rules (← spanFrom start)
  else if ← eatWord "if" then
    let test ← nested.expr
    word "then"
    let yes ← nested.expr
    word "else"
    let no ← nested.expr
    return .cond test yes no (← spanFrom start)
  else if ← eatWord "while" then
    let test ← nested.expr
    word "do"
    let body ← nested.expr
    return .loop test body (← spanFrom start)
  else
    word "raise"
    let exn ← nested.expr
    return .raise exn (← spanFrom start)

def atAtomicExpr : Reader Bool := do
  match ← peek? with
  | some token =>
    match token.kind with
    | .leftParen | .leftBracket | .leftBrace => return true
    | .identifier =>
      return token.text == "op" || token.text == "let" ||
        (!isReserved token.text && (← exprOperator?).isNone)
    | .symbol =>
      return token.text == "#" ||
        (!isReserved token.text && (← exprOperator?).isNone)
    | _ => return token.constant?.isSome
  | none => return false

def parenthesized (nested : Phrases) (start : Span) : Reader Expr := do
  if ← eatKind .rightParen then
    return .tuple [] (← spanFrom start)
  let first ← nested.expr
  let more (kind : TokenKind) : Reader (List Expr) := many do
    if ← eatKind kind then return some (← nested.expr) else return none
  if ← atKind .comma then
    let rest ← more .comma
    rightParen
    return .tuple (first :: rest) (← spanFrom start)
  else if ← atKind .semicolon then
    let rest ← more .semicolon
    rightParen
    return .seq (first :: rest) (← spanFrom start)
  else
    rightParen
    return first

def exprSequence (nested : Phrases) (start : Span) : Reader Expr := do
  match ← separated nested.expr semicolon with
  | [expr] => return expr
  | exprs => return .seq exprs (← spanFrom start)

/-- After `let`: the operators declared there are in force up to `end`. -/
def letExpr (nested : Phrases) (start : Span) : Reader Expr := do
  let (declaration, body) ← withOperators do
    let declaration ← nested.decl
    word "in"
    let body ← exprSequence nested start
    word "end"
    return (declaration, body)
  return .letIn declaration body (← spanFrom start)

def atomicExpr (nested : Phrases) : Reader Expr := do
  let start ← currentSpan
  if ← eatKind .leftParen then
    parenthesized nested start
  else if ← eatKind .leftBracket then
    let elements ←
      if ← atKind .rightBracket then pure []
      else separated nested.expr comma
    rightBracket
    return .list elements (← spanFrom start)
  else if ← eatKind .leftBrace then
    let fields ←
      if ← atKind .rightBrace then pure []
      else separated (do
        let (name, _) ← label
        word "="
        return (name, ← nested.expr)) comma
    rightBrace
    return .record fields (← spanFrom start)
  else if ← atConstant then
    let (value, span) ← constant
    return .const value span
  else if ← eatWord "#" then
    let (name, _) ← label
    return .selector name (← spanFrom start)
  else if ← eatWord "let" then
    letExpr nested start
  else
    let explicit ← eatWord "op"
    if !explicit && (← exprOperator?).isSome then
      failHere .bareOperator [.expression]
    else
      let (name, span) ← longName
      return .name name (if explicit then start.merge span else span)

def appliedExpr (nested : Phrases) : Reader Expr := do
  let apply (function argument : Expr) : Expr :=
    .app function argument (function.span.merge argument.span)
  let head ← atomicExpr nested
  whileSome head fun function => do
    if ← atAtomicExpr then
      return some (apply function (← atomicExpr nested))
    else if ← atWord "fn" then
      return some (apply function (← keywordForm nested))
    else return none

def combineExprs (operator : Operator) (left right : Expr) : Expr :=
  let span := left.span.merge right.span
  .app (.name (.simple operator.name) operator.span)
    (.tuple [left, right] span) span

/-- Operands with operators between them; only the last may be a keyword
form. -/
def operatorExpr (nested : Phrases) : Reader Expr := do
  let first ← appliedExpr nested
  let (rest, _) ← whileSome (([] : List (Operator × Expr)), true)
    fun (operands, more) => do
      if !more then return none
      else
        match ← exprOperator? with
        | none => return none
        | some operator =>
          advance
          if ← atKeywordForm then
            return some ((operator, ← keywordForm nested) :: operands, false)
          else
            return some ((operator, ← appliedExpr nested) :: operands, true)
  grouped combineExprs first rest.reverse

def typedExpr (nested : Phrases) : Reader Expr := do
  let first ← operatorExpr nested
  whileSome first fun inner => do
    if ← eatWord ":" then
      let type ← nested.type
      return some (.typed inner type (inner.span.merge type.span))
    else return none

/-- Operands of a connective, grouped to the left; the right one may be a
keyword form. -/
def connective (nested : Phrases) (text : String)
    (join : Expr → Expr → Span → Expr) (tighter : Reader Expr) :
    Reader Expr := do
  let first ← tighter
  whileSome first fun left => do
    if ← eatWord text then
      let right ←
        if ← atKeywordForm then keywordForm nested else tighter
      return some (join left right (left.span.merge right.span))
    else return none

def andAlsoExpr (nested : Phrases) : Reader Expr :=
  connective nested "andalso" .andAlso (typedExpr nested)

def orElseExpr (nested : Phrases) : Reader Expr :=
  connective nested "orelse" .orElse (andAlsoExpr nested)

def expr (nested : Phrases) : Reader Expr := do
  if ← atKeywordForm then
    keywordForm nested
  else
    let first ← orElseExpr nested
    whileSome first fun body => do
      if ← eatWord "handle" then
        let rules ← matchRules nested
        return some (.handle body rules (body.span.merge rules.span))
      else return none

end Sml.Reading
