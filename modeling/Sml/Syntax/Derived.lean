import Sml.Syntax.Phrase

/-!
# Derived forms and measures of phrases

A function declared by clauses is the function expression that `toExpr`
gives: with one argument its rules are the clauses; with more it takes them
one by one and matches their tuple.

The heights bound how deeply phrases are nested, derived forms included.
-/

namespace Sml

/-! ## Functions declared by clauses -/

namespace Clause

def typedBody (clause : Clause Expr) : Expr :=
  match clause.result with
  | some type => .typed clause.body type clause.body.span
  | none => clause.body

end Clause

namespace FunBind

def argumentName (index : Nat) : String := "_arg" ++ toString index

def toExpr (binding : FunBind Expr) : Expr :=
  let span := binding.span
  match binding.arity with
  | 1 =>
    .fn ⟨binding.clauses.filterMap fun clause =>
      clause.patterns.head?.map fun pattern => ⟨pattern, clause.typedBody⟩,
      span⟩ span
  | arity =>
    let names := (List.range arity).map fun index => argumentName (index + 1)
    let rules := binding.clauses.map fun clause =>
      ⟨.tuple clause.patterns clause.span, clause.typedBody⟩
    let choice := Expr.caseOf
      (.tuple (names.map fun name => .var name span) span) ⟨rules, span⟩ span
    names.foldr
      (fun name body => .fn ⟨[⟨.var name span, body⟩], span⟩ span) choice

end FunBind

def Expr.functionRules? : Expr → Option (Match Expr)
  | .fn rules _ => some rules
  | .typed body _ _ => body.functionRules?
  | _ => none

/-! ## Type variables -/

mutual

def TypeExpr.typeVariables : TypeExpr → List String
  | .var name _ => [name]
  | .record fields _ => typeVariablesOfFields fields
  | .tuple elements _ => typeVariablesOfList elements
  | .arrow parameter result _ => parameter.typeVariables ++ result.typeVariables
  | .con _ arguments _ => typeVariablesOfList arguments

def TypeExpr.typeVariablesOfList : List TypeExpr → List String
  | [] => []
  | type :: rest => type.typeVariables ++ typeVariablesOfList rest

def TypeExpr.typeVariablesOfFields : List (String × TypeExpr) → List String
  | [] => []
  | (_, type) :: rest => type.typeVariables ++ typeVariablesOfFields rest

end

def TypeExpr.typeVariablesOfOption (type : Option TypeExpr) : List String :=
  (type.map TypeExpr.typeVariables).getD []

mutual

def Pat.typeVariables : Pat → List String
  | .wildcard _ => []
  | .const _ _ => []
  | .name _ _ => []
  | .record fields _ _ => typeVariablesOfFields fields
  | .tuple elements _ => typeVariablesOfList elements
  | .list elements _ => typeVariablesOfList elements
  | .con _ argument _ => argument.typeVariables
  | .typed pattern type _ => pattern.typeVariables ++ type.typeVariables
  | .layered _ type pattern _ =>
    TypeExpr.typeVariablesOfOption type ++ pattern.typeVariables

def Pat.typeVariablesOfList : List Pat → List String
  | [] => []
  | pattern :: rest => pattern.typeVariables ++ typeVariablesOfList rest

def Pat.typeVariablesOfFields : List (String × Pat) → List String
  | [] => []
  | (_, pattern) :: rest =>
    pattern.typeVariables ++ typeVariablesOfFields rest

end

mutual

def Expr.typeVariables : Expr → List String
  | .const _ _ => []
  | .name _ _ => []
  | .selector _ _ => []
  | .record fields _ => Expr.typeVariablesOfFields fields
  | .tuple elements _ => Expr.typeVariablesOfList elements
  | .list elements _ => Expr.typeVariablesOfList elements
  | .seq expressions _ => Expr.typeVariablesOfList expressions
  | .app function argument _ =>
    function.typeVariables ++ argument.typeVariables
  | .typed body type _ => body.typeVariables ++ type.typeVariables
  | .andAlso left right _ => left.typeVariables ++ right.typeVariables
  | .orElse left right _ => left.typeVariables ++ right.typeVariables
  | .cond test yes no _ =>
    test.typeVariables ++ yes.typeVariables ++ no.typeVariables
  | .caseOf scrutinee ⟨rules, _⟩ _ =>
    scrutinee.typeVariables ++ Expr.typeVariablesOfRules rules
  | .fn ⟨rules, _⟩ _ => Expr.typeVariablesOfRules rules
  | .letIn declaration body _ =>
    declaration.typeVariables ++ body.typeVariables
  | .raise exn _ => exn.typeVariables
  | .handle body ⟨rules, _⟩ _ =>
    body.typeVariables ++ Expr.typeVariablesOfRules rules
  | .loop test body _ => test.typeVariables ++ body.typeVariables

def Expr.typeVariablesOfList : List Expr → List String
  | [] => []
  | expr :: rest => expr.typeVariables ++ Expr.typeVariablesOfList rest

def Expr.typeVariablesOfFields : List (String × Expr) → List String
  | [] => []
  | (_, expr) :: rest =>
    expr.typeVariables ++ Expr.typeVariablesOfFields rest

def Expr.typeVariablesOfRules : List (Rule Expr) → List String
  | [] => []
  | ⟨pattern, body⟩ :: rest =>
    pattern.typeVariables ++ body.typeVariables ++
      Expr.typeVariablesOfRules rest

/-- The type variables that the value declarations in a declaration mention
and do not bind themselves. -/
def Decl.typeVariables : Decl → List String
  | .val _ parameters bindings _ =>
    (Decl.typeVariablesOfBindings bindings).filter
      fun name => !parameters.contains name
  | .functions parameters bindings _ =>
    (Decl.typeVariablesOfFunctions bindings).filter
      fun name => !parameters.contains name
  | .localIn hidden body _ => hidden.typeVariables ++ body.typeVariables
  | .seq declarations _ => Decl.typeVariablesOfList declarations
  | .types _ _ => []
  | .datatypes _ _ => []
  | .replicate _ _ _ => []
  | .exceptions _ _ => []
  | .opened _ _ => []
  | .fixity _ _ _ => []
  | .structures _ _ => []
  | .signatures _ _ => []
  | .functors _ _ => []

def Decl.typeVariablesOfList : List Decl → List String
  | [] => []
  | declaration :: rest =>
    declaration.typeVariables ++ Decl.typeVariablesOfList rest

def Decl.typeVariablesOfBindings : List (ValBind Expr) → List String
  | [] => []
  | ⟨pattern, body, _⟩ :: rest =>
    pattern.typeVariables ++ body.typeVariables ++
      Decl.typeVariablesOfBindings rest

def Decl.typeVariablesOfFunctions : List (FunBind Expr) → List String
  | [] => []
  | ⟨clauses, _⟩ :: rest =>
    Decl.typeVariablesOfClauses clauses ++
      Decl.typeVariablesOfFunctions rest

def Decl.typeVariablesOfClauses : List (Clause Expr) → List String
  | [] => []
  | ⟨_, patterns, result, body, _⟩ :: rest =>
    Pat.typeVariablesOfList patterns ++ TypeExpr.typeVariablesOfOption result ++
      body.typeVariables ++ Decl.typeVariablesOfClauses rest

end

/-! ## Heights -/

mutual

def Expr.height : Expr → Nat
  | .const _ _ => 1
  | .name _ _ => 1
  | .selector _ _ => 1
  | .record fields _ => Expr.heightOfFields fields + 1
  | .tuple elements _ => Expr.heightOfList elements + 1
  | .list elements _ => Expr.heightOfList elements + 1
  | .seq expressions _ => Expr.heightOfList expressions + 1
  | .app function argument _ => max function.height argument.height + 1
  | .typed body _ _ => body.height + 1
  | .andAlso left right _ => max left.height right.height + 1
  | .orElse left right _ => max left.height right.height + 1
  | .cond test yes no _ =>
    max test.height (max yes.height no.height) + 1
  | .caseOf scrutinee ⟨rules, _⟩ _ =>
    max scrutinee.height (Expr.heightOfRules rules) + 1
  | .fn ⟨rules, _⟩ _ => Expr.heightOfRules rules + 1
  | .letIn declaration body _ => max declaration.height body.height + 1
  | .raise exn _ => exn.height + 1
  | .handle body ⟨rules, _⟩ _ =>
    max body.height (Expr.heightOfRules rules) + 1
  | .loop test body _ => max test.height body.height + 1

def Expr.heightOfList : List Expr → Nat
  | [] => 0
  | expr :: rest => max expr.height (Expr.heightOfList rest)

def Expr.heightOfFields : List (String × Expr) → Nat
  | [] => 0
  | (_, expr) :: rest => max expr.height (Expr.heightOfFields rest)

def Expr.heightOfRules : List (Rule Expr) → Nat
  | [] => 0
  | ⟨_, body⟩ :: rest => max body.height (Expr.heightOfRules rest)

def Decl.height : Decl → Nat
  | .val _ _ bindings _ => Decl.heightOfBindings bindings + 1
  | .functions _ bindings _ => Decl.heightOfFunctions bindings + 1
  | .localIn hidden body _ => max hidden.height body.height + 1
  | .seq declarations _ => Decl.heightOfList declarations + 1
  | .structures bindings _ => Decl.heightOfStructures bindings + 1
  | .functors bindings _ => Decl.heightOfFunctors bindings + 1
  | .types _ _ => 1
  | .datatypes _ _ => 1
  | .replicate _ _ _ => 1
  | .exceptions _ _ => 1
  | .opened _ _ => 1
  | .fixity _ _ _ => 1
  | .signatures _ _ => 1

def Decl.heightOfList : List Decl → Nat
  | [] => 0
  | declaration :: rest =>
    max declaration.height (Decl.heightOfList rest)

def Decl.heightOfBindings : List (ValBind Expr) → Nat
  | [] => 0
  | ⟨_, body, _⟩ :: rest => max body.height (Decl.heightOfBindings rest)

def Decl.heightOfFunctions : List (FunBind Expr) → Nat
  | [] => 0
  | ⟨clauses, _⟩ :: rest =>
    max (Decl.heightOfClauses clauses) (Decl.heightOfFunctions rest)

/-- A clause is nested in a function for each of its arguments, a choice
and a type, and the arguments are nested in a tuple. -/
def Decl.heightOfClauses : List (Clause Expr) → Nat
  | [] => 3
  | ⟨_, patterns, _, body, _⟩ :: rest =>
    max (patterns.length + body.height + 3) (Decl.heightOfClauses rest)

def Decl.heightOfStructures : List (StrBind StrExp) → Nat
  | [] => 0
  | ⟨_, body, _⟩ :: rest => max body.height (Decl.heightOfStructures rest)

def Decl.heightOfFunctors : List (FunctorBind StrExp) → Nat
  | [] => 0
  | ⟨_, _, _, body, _⟩ :: rest =>
    max body.height (Decl.heightOfFunctors rest)

def StrExp.height : StrExp → Nat
  | .body declaration _ => declaration.height + 1
  | .name _ _ => 1
  | .ascribed _ body _ _ => body.height + 1
  | .apply _ argument _ => argument.height + 1
  | .letIn declaration body _ => max declaration.height body.height + 1

end

end Sml
