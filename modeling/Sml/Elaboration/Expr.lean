import Sml.Elaboration.Pattern
import Sml.Syntax.Derived

/-!
# Expressions

The rules for expressions, given how the phrases inside them are elaborated.
-/

namespace Sml

structure Inner where
  expr : Scope → Expr → Elab Ty
  decl : Scope → Decl → Elab Scope
  str : Scope → StrExp → Elab StaticBasis

/-! ## Expressions whose types may be generalized -/

def Expr.withoutTypes : Expr → Expr
  | .typed body _ _ => body.withoutTypes
  | expr => expr

section Nonexpansive

variable (isConstructor : LongName → Bool)

mutual

/-- Whether an expression is one whose evaluation has no effect by its form:
no application but that of a constructor other than `ref`. -/
def Expr.isNonexpansive : Expr → Bool
  | .const _ _ => true
  | .name _ _ => true
  | .selector _ _ => true
  | .fn _ _ => true
  | .record fields _ => Expr.areNonexpansiveFields fields
  | .tuple elements _ => Expr.areNonexpansive elements
  | .list elements _ => Expr.areNonexpansive elements
  | .typed body _ _ => body.isNonexpansive
  | .app function argument _ =>
    match function.withoutTypes with
    | .name long _ =>
      long.name != "ref" && isConstructor long && argument.isNonexpansive
    | _ => false
  | _ => false

def Expr.areNonexpansive : List Expr → Bool
  | [] => true
  | expr :: rest => expr.isNonexpansive && Expr.areNonexpansive rest

def Expr.areNonexpansiveFields : List (String × Expr) → Bool
  | [] => true
  | (_, expr) :: rest =>
    expr.isNonexpansive && Expr.areNonexpansiveFields rest

end

end Nonexpansive

namespace Elab

def isNonexpansive (scope : Scope) (expr : Expr) : Elab Bool :=
  look fun tree =>
    expr.isNonexpansive fun name =>
      (tree.staticValue? scope name.path name.name).any
        (·.status.isConstructor)

def constantType : Constant → Ty
  | .int _ => .int
  | .real _ => .real
  | .string _ => .string
  | .char _ => .char

section Rules

variable (inner : Inner) (scope : Scope)

def matchType (rules : Match Expr) : Elab Ty := do
  let parameter ← fresh
  let result ← fresh
  for rule in rules.rules do
    let (type, bound) ← pattern scope rule.pattern
    let _ ← unify scope parameter type rule.pattern.span .ruleArgument
    let body ← nested scope
    for (name, type) in bound do
      write body (·.setStaticValue name { type })
    let bodyType ← withMonomorphic [type] (inner.expr body rule.body)
    let _ ← unify scope result bodyType rule.body.span .ruleResult
  return .arrow parameter result

def recordFields (span : Span) :
    List (String × Expr) → Table Ty → Elab (Table Ty)
  | [], fields => return fields
  | (label, expr) :: rest, fields => do
    let type ← inner.expr scope expr
    if Table.contains fields label then
      invalid span (.labelTwice label .expression)
    else recordFields span rest (Table.insert fields label type)

def boolean (context : ClashContext) (expr : Expr) : Elab Unit := do
  let type ← inner.expr scope expr
  let _ ← unify scope type .bool expr.span context

def exprRule : Expr → Elab Ty
  | .const value _ => return constantType value
  | .name long span => do
    match ← value? scope long with
    | none => unbound span .identifier long.text
    | some value =>
      -- A function being defined has one type in its own group.
      if value.pending then return value.type
      else instantiateScheme value.type
  | .record fields span => do
    return .record (← recordFields inner scope span fields []) true
  | .tuple elements _ => do
    let types ← elements.mapM (inner.expr scope)
    return if types.isEmpty then .unit else .tuple types
  | .list elements _ => do
    let element ← fresh
    for expr in elements do
      let type ← inner.expr scope expr
      let _ ← unify scope element type expr.span .listElements
    return .list element
  | .selector label span => do
    let field ← fresh
    let row ← freshRecord [(label, field)] span
    return .arrow row field
  | .app function argument span => do
    let function ← inner.expr scope function
    let argument ← inner.expr scope argument
    let result ← fresh
    let _ ← unify scope function (.arrow argument result) span .application
    return result
  | .typed body annotation span => do
    let body ← inner.expr scope body
    let annotation ← type scope .explicit annotation
    unify scope body annotation span .typedExpression
  | .andAlso left right _ => do
    boolean inner scope .connective left
    boolean inner scope .connective right
    return .bool
  | .orElse left right _ => do
    boolean inner scope .connective left
    boolean inner scope .connective right
    return .bool
  | .cond test yes no span => do
    boolean inner scope .condition test
    let yes ← inner.expr scope yes
    let no ← inner.expr scope no
    unify scope yes no span .branches
  | .caseOf scrutinee rules span => do
    let scrutinee ← inner.expr scope scrutinee
    let rules ← matchType inner scope rules
    let result ← fresh
    let _ ← unify scope rules (.arrow scrutinee result) span .caseRules
    return result
  | .fn rules _ => matchType inner scope rules
  | .letIn declaration body _ =>
    keepingMonomorphic do
      let within ← inner.decl scope declaration
      inner.expr within body
  | .raise exn span => do
    let type ← inner.expr scope exn
    let _ ← unify scope type .exn span .raised
    fresh
  | .handle body rules span => do
    let body ← inner.expr scope body
    let handler ← matchType inner scope rules
    let _ ← unify scope handler (.arrow .exn body) span .handler
    return body
  | .seq expressions _ =>
    expressions.foldlM (fun _ expr => inner.expr scope expr) .unit
  | .loop test body _ => do
    boolean inner scope .condition test
    let _ ← inner.expr scope body
    return .unit

end Rules

end Elab

end Sml
