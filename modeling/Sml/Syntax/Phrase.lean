import Sml.Source.Span
import Sml.Syntax.Fixity
import Sml.Syntax.Name

/-!
# Phrases

The abstract syntax of the core and of modules.  Operators are already
applied to the pairs of their operands.  Clauses of `fun`, `while` loops and
sequences are kept as written.  Every phrase carries the span it was read
from.
-/

namespace Sml

/-! ## Types and patterns -/

inductive TypeExpr where
  | var (name : String) (span : Span)
  | record (fields : List (String × TypeExpr)) (span : Span)
  | tuple (elements : List TypeExpr) (span : Span)
  | arrow (parameter result : TypeExpr) (span : Span)
  | con (name : LongName) (arguments : List TypeExpr) (span : Span)
deriving Inhabited

namespace TypeExpr

def span : TypeExpr → Span
  | .var _ span | .record _ span | .tuple _ span | .arrow _ _ span
  | .con _ _ span => span

end TypeExpr

inductive Pat where
  | wildcard (span : Span)
  | const (value : Constant) (span : Span)
  /-- A variable, or a constructor without argument. -/
  | name (name : LongName) (span : Span)
  /-- Not `complete` when the pattern ends in `...`. -/
  | record (fields : List (String × Pat)) (complete : Bool) (span : Span)
  | tuple (elements : List Pat) (span : Span)
  | list (elements : List Pat) (span : Span)
  | con (constructor : LongName) (argument : Pat) (span : Span)
  | typed (pattern : Pat) (type : TypeExpr) (span : Span)
  /-- A name for what the pattern after `as` matches. -/
  | layered (name : String) (type : Option TypeExpr) (pattern : Pat)
      (span : Span)
deriving Inhabited

namespace Pat

def span : Pat → Span
  | .wildcard span | .const _ span | .name _ span | .record _ _ span
  | .tuple _ span | .list _ span | .con _ _ span | .typed _ _ span
  | .layered _ _ _ span => span

def var (name : String) (span : Span) : Pat :=
  .name (.simple name) span

def simpleName? : Pat → Option String
  | .name long _ => if long.isSimple then some long.name else none
  | .typed pattern _ _ => pattern.simpleName?
  | _ => none

end Pat

/-! ## Bindings -/

structure Rule (ε : Type) where
  pattern : Pat
  body : ε

structure Match (ε : Type) where
  rules : List (Rule ε)
  span : Span

structure ValBind (ε : Type) where
  pattern : Pat
  body : ε
  span : Span

/-- One clause `name p₁ … pₙ : type = body`. -/
structure Clause (ε : Type) where
  name : String
  patterns : List Pat
  result : Option TypeExpr
  body : ε
  span : Span

structure FunBind (ε : Type) where
  clauses : List (Clause ε)
  span : Span

namespace FunBind

variable {ε : Type}

def name (binding : FunBind ε) : String :=
  match binding.clauses with
  | clause :: _ => clause.name
  | [] => ""

def arity (binding : FunBind ε) : Nat :=
  match binding.clauses with
  | clause :: _ => clause.patterns.length
  | [] => 0

end FunBind

structure TypeBind where
  parameters : List String
  name : String
  type : TypeExpr
  span : Span

structure ConBind where
  name : String
  argument : Option TypeExpr
  span : Span

structure DatBind where
  parameters : List String
  name : String
  constructors : List ConBind
  span : Span

namespace DatBind

def constructorNames (binding : DatBind) : List String :=
  binding.constructors.map (·.name)

end DatBind

inductive ExnBind where
  | new (name : String) (argument : Option TypeExpr) (span : Span)
  | alias (name : String) (target : LongName) (span : Span)

namespace ExnBind

def name : ExnBind → String
  | .new name _ _ | .alias name _ _ => name

end ExnBind

/-! ## Signatures -/

mutual

inductive SigExp where
  | sig (specs : List Spec) (span : Span)
  | name (name : String) (span : Span)
  | whereType (signature : SigExp) (parameters : List String)
      (name : LongName) (type : TypeExpr) (span : Span)

inductive Spec where
  | val (name : String) (type : TypeExpr) (span : Span)
  | type (parameters : List String) (name : String)
      (definition : Option TypeExpr) (equality : Bool) (span : Span)
  | datatypes (bindings : List DatBind) (span : Span)
  | replicate (name : String) (target : LongName) (span : Span)
  | exn (name : String) (argument : Option TypeExpr) (span : Span)
  | substructure (name : String) (signature : SigExp) (span : Span)
  | included (signature : SigExp) (span : Span)

end

namespace SigExp

def span : SigExp → Span
  | .sig _ span | .name _ span | .whereType _ _ _ _ span => span

end SigExp

/-! ## Expressions, declarations and structures -/

structure StrBind (σ : Type) where
  name : String
  body : σ
  span : Span

structure SigBind where
  name : String
  body : SigExp
  span : Span

/-- A signature given for the result is part of the body. -/
structure FunctorBind (σ : Type) where
  name : String
  parameterName : String
  parameter : SigExp
  body : σ
  span : Span

mutual

inductive Expr where
  | const (value : Constant) (span : Span)
  | name (name : LongName) (span : Span)
  | record (fields : List (String × Expr)) (span : Span)
  | tuple (elements : List Expr) (span : Span)
  | list (elements : List Expr) (span : Span)
  | selector (label : String) (span : Span)
  | app (function argument : Expr) (span : Span)
  | typed (body : Expr) (type : TypeExpr) (span : Span)
  | andAlso (left right : Expr) (span : Span)
  | orElse (left right : Expr) (span : Span)
  | cond (test yes no : Expr) (span : Span)
  | caseOf (scrutinee : Expr) (rules : Match Expr) (span : Span)
  | fn (rules : Match Expr) (span : Span)
  | letIn (declaration : Decl) (body : Expr) (span : Span)
  | raise (exn : Expr) (span : Span)
  | handle (body : Expr) (rules : Match Expr) (span : Span)
  | seq (expressions : List Expr) (span : Span)
  | loop (test body : Expr) (span : Span)

inductive Decl where
  | val (recursive : Bool) (parameters : List String)
      (bindings : List (ValBind Expr)) (span : Span)
  | functions (parameters : List String) (bindings : List (FunBind Expr))
      (span : Span)
  | types (bindings : List TypeBind) (span : Span)
  | datatypes (bindings : List DatBind) (span : Span)
  | replicate (name : String) (target : LongName) (span : Span)
  | exceptions (bindings : List ExnBind) (span : Span)
  | localIn (hidden body : Decl) (span : Span)
  | opened (structures : List LongName) (span : Span)
  | seq (declarations : List Decl) (span : Span)
  | fixity (fixity : Fixity) (names : List String) (span : Span)
  | structures (bindings : List (StrBind StrExp)) (span : Span)
  | signatures (bindings : List SigBind) (span : Span)
  | functors (bindings : List (FunctorBind StrExp)) (span : Span)

inductive StrExp where
  | body (declaration : Decl) (span : Span)
  | name (name : LongName) (span : Span)
  /-- An ascription; `hides` when it hides what the signature leaves
  abstract. -/
  | ascribed (hides : Bool) (body : StrExp) (signature : SigExp)
      (span : Span)
  | apply (functor : String) (argument : StrExp) (span : Span)
  | letIn (declaration : Decl) (body : StrExp) (span : Span)

end

namespace Expr

def span : Expr → Span
  | .const _ span | .name _ span | .record _ span | .tuple _ span
  | .list _ span | .selector _ span | .app _ _ span | .typed _ _ span
  | .andAlso _ _ span | .orElse _ _ span | .cond _ _ _ span
  | .caseOf _ _ span | .fn _ span | .letIn _ _ span | .raise _ span
  | .handle _ _ span | .seq _ span | .loop _ _ span => span

def var (name : String) (span : Span) : Expr :=
  .name (.simple name) span

end Expr

namespace Decl

def span : Decl → Span
  | .val _ _ _ span | .functions _ _ span | .types _ span
  | .datatypes _ span | .replicate _ _ span | .exceptions _ span
  | .localIn _ _ span | .opened _ span | .seq _ span | .fixity _ _ span
  | .structures _ span | .signatures _ span | .functors _ span => span

end Decl

namespace StrExp

def span : StrExp → Span
  | .body _ span | .name _ span | .ascribed _ _ _ span | .apply _ _ span
  | .letIn _ _ span => span

end StrExp

structure Program where
  declarations : List Decl

end Sml
