import Mathlib.Data.List.Basic
import Sml.Syntax.Derived

/-!
# The type variables that phrases are written with

Type variables of value declarations, patterns and expressions stand for fresh
ones.  Taken as written are the parameters of declared types, which are the
only variables in what such a type stands for, and the variables of specified
values.  These are counted here, wherever in a phrase they are.
-/

namespace Sml

open Expr List

variable (P : String → Prop)

/-! ## Types and signatures -/

def TypeExpr.WrittenWith (type : TypeExpr) : Prop := ∀ name ∈ type.typeVariables, P name

mutual

def SigExp.WrittenWith : SigExp → Prop
  | .sig specs _ => Spec.AllWrittenWith specs
  | .name _ _ => True
  | .whereType body parameters _ _ _ =>
    body.WrittenWith ∧ ∀ name ∈ parameters, P name

def Spec.WrittenWith : Spec → Prop
  | .val _ type _ => type.WrittenWith P
  | .type parameters _ _ _ _ => ∀ name ∈ parameters, P name
  | .datatypes bindings _ =>
    ∀ binding ∈ bindings, ∀ name ∈ binding.parameters, P name
  | .replicate _ _ _ => True
  | .exn _ _ _ => True
  | .substructure _ body _ => body.WrittenWith
  | .included body _ => body.WrittenWith

def Spec.AllWrittenWith : List Spec → Prop
  | [] => True
  | spec :: rest => spec.WrittenWith ∧ Spec.AllWrittenWith rest

end

/-! ## Expressions, declarations and structures -/

mutual

def Expr.WrittenWith : Expr → Prop
  | .const _ _ => True
  | .name _ _ => True
  | .selector _ _ => True
  | .record fields _ => Expr.FieldsWrittenWith fields
  | .tuple elements _ => Expr.AllWrittenWith elements
  | .list elements _ => Expr.AllWrittenWith elements
  | .seq expressions _ => Expr.AllWrittenWith expressions
  | .app function argument _ => function.WrittenWith ∧ argument.WrittenWith
  | .typed body _ _ => body.WrittenWith
  | .andAlso left right _ => left.WrittenWith ∧ right.WrittenWith
  | .orElse left right _ => left.WrittenWith ∧ right.WrittenWith
  | .cond test yes no _ =>
    test.WrittenWith ∧ yes.WrittenWith ∧ no.WrittenWith
  | .caseOf scrutinee ⟨rules, _⟩ _ =>
    scrutinee.WrittenWith ∧ Expr.RulesWrittenWith rules
  | .fn ⟨rules, _⟩ _ => Expr.RulesWrittenWith rules
  | .letIn declaration body _ => declaration.WrittenWith ∧ body.WrittenWith
  | .raise exn _ => exn.WrittenWith
  | .handle body ⟨rules, _⟩ _ =>
    body.WrittenWith ∧ Expr.RulesWrittenWith rules
  | .loop test body _ => test.WrittenWith ∧ body.WrittenWith

def Expr.AllWrittenWith : List Expr → Prop
  | [] => True
  | expr :: rest => expr.WrittenWith ∧ Expr.AllWrittenWith rest

def Expr.FieldsWrittenWith : List (String × Expr) → Prop
  | [] => True
  | (_, expr) :: rest => expr.WrittenWith ∧ Expr.FieldsWrittenWith rest

def Expr.RulesWrittenWith : List (Rule Expr) → Prop
  | [] => True
  | ⟨_, body⟩ :: rest => body.WrittenWith ∧ Expr.RulesWrittenWith rest

def Decl.WrittenWith : Decl → Prop
  | .val _ _ bindings _ => Decl.BindingsWrittenWith bindings
  | .functions _ bindings _ => Decl.FunctionsWrittenWith bindings
  | .types bindings _ =>
    ∀ binding ∈ bindings, ∀ name ∈ binding.parameters, P name
  | .datatypes bindings _ =>
    ∀ binding ∈ bindings, ∀ name ∈ binding.parameters, P name
  | .replicate _ _ _ => True
  | .exceptions _ _ => True
  | .localIn hidden body _ => hidden.WrittenWith ∧ body.WrittenWith
  | .opened _ _ => True
  | .seq declarations _ => Decl.AllWrittenWith declarations
  | .fixity _ _ _ => True
  | .structures bindings _ => Decl.StructuresWrittenWith bindings
  | .signatures bindings _ => ∀ binding ∈ bindings, binding.body.WrittenWith P
  | .functors bindings _ => Decl.FunctorsWrittenWith bindings

def Decl.AllWrittenWith : List Decl → Prop
  | [] => True
  | declaration :: rest =>
    declaration.WrittenWith ∧ Decl.AllWrittenWith rest

def Decl.BindingsWrittenWith : List (ValBind Expr) → Prop
  | [] => True
  | ⟨_, body, _⟩ :: rest => body.WrittenWith ∧ Decl.BindingsWrittenWith rest

def Decl.FunctionsWrittenWith : List (FunBind Expr) → Prop
  | [] => True
  | ⟨clauses, _⟩ :: rest =>
    Decl.ClausesWrittenWith clauses ∧ Decl.FunctionsWrittenWith rest

def Decl.ClausesWrittenWith : List (Clause Expr) → Prop
  | [] => True
  | ⟨_, _, _, body, _⟩ :: rest =>
    body.WrittenWith ∧ Decl.ClausesWrittenWith rest

def Decl.StructuresWrittenWith : List (StrBind StrExp) → Prop
  | [] => True
  | ⟨_, body, _⟩ :: rest => body.WrittenWith ∧ Decl.StructuresWrittenWith rest

def Decl.FunctorsWrittenWith : List (FunctorBind StrExp) → Prop
  | [] => True
  | ⟨_, _, parameter, body, _⟩ :: rest =>
    parameter.WrittenWith P ∧ body.WrittenWith ∧ Decl.FunctorsWrittenWith rest

def StrExp.WrittenWith : StrExp → Prop
  | .body declaration _ => declaration.WrittenWith
  | .name _ _ => True
  | .ascribed _ body signature _ =>
    body.WrittenWith ∧ signature.WrittenWith P
  | .apply _ argument _ => argument.WrittenWith
  | .letIn declaration body _ => declaration.WrittenWith ∧ body.WrittenWith

end

variable {P}

variable {span : Span}

namespace TypeExpr

theorem writtenWith_var {name : String} : (var name span).WrittenWith P ↔ P name := by
  simp [WrittenWith, typeVariables]

private theorem forall_typeVariablesOfList {types : List TypeExpr} :
    (∀ name ∈ typeVariablesOfList types, P name) ↔ ∀ type ∈ types, type.WrittenWith P := by
  induction types with
  | nil => simp [typeVariablesOfList]
  | cons type types ih =>
    rw [typeVariablesOfList, forall_mem_append, ih, forall_mem_cons]
    rfl

theorem writtenWith_tuple {elements : List TypeExpr} : (tuple elements span).WrittenWith P ↔
      ∀ element ∈ elements, element.WrittenWith P := by
  rw [WrittenWith, typeVariables, forall_typeVariablesOfList]

theorem writtenWith_con {name : LongName} {arguments : List TypeExpr} :
    (con name arguments span).WrittenWith P ↔ ∀ argument ∈ arguments, argument.WrittenWith P := by
  rw [WrittenWith, typeVariables, forall_typeVariablesOfList]

theorem writtenWith_record {fields : List (String × TypeExpr)} :
    (record fields span).WrittenWith P ↔ ∀ field ∈ fields, field.2.WrittenWith P := by
  rw [WrittenWith, typeVariables]
  induction fields with
  | nil => simp [typeVariablesOfFields]
  | cons field fields ih =>
    rw [typeVariablesOfFields, forall_mem_append, ih, forall_mem_cons]
    rfl

theorem writtenWith_arrow {parameter result : TypeExpr} :
    (arrow parameter result span).WrittenWith P ↔
      parameter.WrittenWith P ∧ result.WrittenWith P := by
  rw [WrittenWith, typeVariables, forall_mem_append]
  rfl

end TypeExpr

@[simp] theorem Spec.allWrittenWith_iff {specs : List Spec} :
    Spec.AllWrittenWith P specs ↔ ∀ spec ∈ specs, spec.WrittenWith P := by
  induction specs with
  | nil => simp [Spec.AllWrittenWith]
  | cons spec specs ih => simp [Spec.AllWrittenWith, ih]

namespace Expr

@[simp] theorem allWrittenWith_iff {exprs : List Expr} :
    AllWrittenWith P exprs ↔ ∀ expr ∈ exprs, expr.WrittenWith P := by
  induction exprs with
  | nil => simp [AllWrittenWith]
  | cons expr exprs ih => simp [AllWrittenWith, ih]

@[simp] theorem fieldsWrittenWith_iff {fields : List (String × Expr)} : FieldsWrittenWith P fields ↔
      ∀ field ∈ fields, field.2.WrittenWith P := by
  induction fields with
  | nil => simp [FieldsWrittenWith]
  | cons field fields ih => simp only [FieldsWrittenWith, ih, forall_mem_cons]

@[simp] theorem rulesWrittenWith_iff {rules : List (Rule Expr)} :
    RulesWrittenWith P rules ↔ ∀ rule ∈ rules, rule.body.WrittenWith P := by
  induction rules with
  | nil => simp [RulesWrittenWith]
  | cons rule rules ih => simp [RulesWrittenWith, ih]

end Expr

namespace Decl

@[simp] theorem allWrittenWith_iff {declarations : List Decl} : AllWrittenWith P declarations ↔
      ∀ declaration ∈ declarations, declaration.WrittenWith P := by
  induction declarations with
  | nil => simp [AllWrittenWith]
  | cons declaration declarations ih => simp [AllWrittenWith, ih]

@[simp] theorem bindingsWrittenWith_iff {bindings : List (ValBind Expr)} :
    BindingsWrittenWith P bindings ↔ ∀ binding ∈ bindings, binding.body.WrittenWith P := by
  induction bindings with
  | nil => simp [BindingsWrittenWith]
  | cons binding bindings ih => simp [BindingsWrittenWith, ih]

@[simp] theorem clausesWrittenWith_iff {clauses : List (Clause Expr)} :
    ClausesWrittenWith P clauses ↔ ∀ clause ∈ clauses, clause.body.WrittenWith P := by
  induction clauses with
  | nil => simp [ClausesWrittenWith]
  | cons clause clauses ih => simp [ClausesWrittenWith, ih]

@[simp] theorem functionsWrittenWith_iff {bindings : List (FunBind Expr)} :
    FunctionsWrittenWith P bindings ↔ ∀ binding ∈ bindings, ∀ clause ∈ binding.clauses,
        clause.body.WrittenWith P := by
  induction bindings with
  | nil => simp [FunctionsWrittenWith]
  | cons binding bindings ih => simp [FunctionsWrittenWith, ih]

@[simp] theorem structuresWrittenWith_iff {bindings : List (StrBind StrExp)} :
    StructuresWrittenWith P bindings ↔ ∀ binding ∈ bindings, binding.body.WrittenWith P := by
  induction bindings with
  | nil => simp [StructuresWrittenWith]
  | cons binding bindings ih => simp [StructuresWrittenWith, ih]

@[simp] theorem functorsWrittenWith_iff {bindings : List (FunctorBind StrExp)} :
    FunctorsWrittenWith P bindings ↔ ∀ binding ∈ bindings, binding.parameter.WrittenWith P ∧
        binding.body.WrittenWith P := by
  induction bindings with
  | nil => simp [FunctorsWrittenWith]
  | cons binding bindings ih => simp [FunctorsWrittenWith, ih, and_assoc]

end Decl

/-! ## Kinds of all names -/

theorem SigExp.writtenWith_of_forall (h : ∀ name, P name)
    (signature : SigExp) : signature.WrittenWith P := by
  apply @SigExp.WrittenWith.induct (SigExp.WrittenWith P)
    (Spec.AllWrittenWith P) (Spec.WrittenWith P)
  all_goals simp_all [SigExp.WrittenWith, Spec.WrittenWith, TypeExpr.WrittenWith]

theorem Spec.writtenWith_of_forall (h : ∀ name, P name) (spec : Spec) : spec.WrittenWith P := by
  have hsignature := SigExp.writtenWith_of_forall h (.sig [spec] {})
  rw [SigExp.WrittenWith, Spec.AllWrittenWith] at hsignature
  exact hsignature.1

theorem Decl.writtenWith_of_forall (h : ∀ name, P name) (declaration : Decl) :
    declaration.WrittenWith P := by
  have hsignature : ∀ signature : SigExp, signature.WrittenWith P := SigExp.writtenWith_of_forall h
  -- The names are known, so every clause of the definition holds if it holds
  -- of what is inside.
  apply @Decl.WrittenWith.induct (Expr.WrittenWith P) (Decl.WrittenWith P)
    (Decl.FunctorsWrittenWith P) (StrExp.WrittenWith P)
    (Decl.StructuresWrittenWith P) (Decl.AllWrittenWith P)
    (Decl.FunctionsWrittenWith P) (Decl.ClausesWrittenWith P)
    (Decl.BindingsWrittenWith P) (Expr.RulesWrittenWith P)
    (Expr.AllWrittenWith P) (Expr.FieldsWrittenWith P)
  all_goals simp_all [Expr.WrittenWith, Decl.WrittenWith, StrExp.WrittenWith]

theorem StrExp.writtenWith_of_forall (h : ∀ name, P name) (body : StrExp) : body.WrittenWith P := by
  have hdeclaration := Decl.writtenWith_of_forall h (.structures [⟨"", body, {}⟩] {})
  rw [Decl.WrittenWith, Decl.structuresWrittenWith_iff] at hdeclaration
  simpa using hdeclaration

/-! ## Functions declared by clauses -/

theorem Clause.writtenWith_typedBody {clause : Clause Expr}
    (h : clause.body.WrittenWith P) : clause.typedBody.WrittenWith P := by
  unfold typedBody
  cases clause.result with
  | none | some => exact h

theorem FunBind.writtenWith_toExpr {binding : FunBind Expr}
    (h : ∀ clause ∈ binding.clauses, clause.body.WrittenWith P) : binding.toExpr.WrittenWith P := by
  unfold toExpr
  split
  · rw [Expr.WrittenWith, rulesWrittenWith_iff]
    intro rule hrule
    obtain ⟨clause, hclause, hfound⟩ := mem_filterMap.mp hrule
    obtain ⟨pattern, _, rfl⟩ := Option.map_eq_some_iff.mp hfound
    exact Clause.writtenWith_typedBody (h clause hclause)
  · -- The functions around the choice have no declarations of their own.
    have hnested : ∀ (names : List String) (body : Expr), body.WrittenWith P →
        (names.foldr (fun name body => fn
          ⟨[⟨.var name binding.span, body⟩], binding.span⟩ binding.span)
          body).WrittenWith P := by
      intro names body hbody
      induction names with
      | nil => exact hbody
      | cons name names ih =>
        rw [foldr_cons, Expr.WrittenWith, rulesWrittenWith_iff]
        simpa using ih
    apply hnested
    rw [Expr.WrittenWith, Expr.WrittenWith, allWrittenWith_iff, rulesWrittenWith_iff]
    constructor
    · intro expr hexpr
      obtain ⟨name, _, rfl⟩ := mem_map.mp hexpr
      trivial
    · intro rule hrule
      obtain ⟨clause, hclause, rfl⟩ := mem_map.mp hrule
      exact Clause.writtenWith_typedBody (h clause hclause)

end Sml
