import Mathlib.Order.CompleteBooleanAlgebra
import Mathlib.Order.CompletePartialOrder
import Sml.Elaboration.Expr
import Sml.Evaluation.Eval
import Sml.Proofs.Invariant

/-!
# Expressions without effects

The types of nonexpansive expressions are generalized because their evaluation
cannot allocate, print, declare an exception or raise one.  The test knows the
names that are constructors from elaboration, and evaluation applies the values
that these names have; so the two must agree on which names are constructors.
-/

namespace Sml

open Expr List

def Value.isConstructor : Value → Bool
  | .constructor _ | .constructed _ _ => true
  | .exnConstructor _ _ | .exn _ _ _ => true
  | .makeRef => true
  | _ => false

namespace ScopeTree

def isStaticConstructor (tree : ScopeTree) (scope : Scope) (long : LongName) :
    Bool :=
  (tree.staticValue? scope long.path long.name).any (·.status.isConstructor)

/-- What is a constructor for elaboration has the value of one, and makes new
cells only under the name `ref`. -/
def BindsConstructors (tree : ScopeTree) (scope : Scope) : Prop :=
  ∀ long : LongName, tree.isStaticConstructor scope long = true →
    ∃ found, tree.dynamicValue? scope long.path long.name = some found ∧
      found.value.isConstructor = true ∧
      (found.value = .makeRef → long.name = "ref")

end ScopeTree

namespace Expr

variable {isConstructor : LongName → Bool}

theorem areNonexpansive_eq (elements : List Expr) : areNonexpansive isConstructor elements =
      elements.all (isNonexpansive isConstructor) := by
  induction elements with
  | nil => rfl
  | cons expr rest ih => rw [areNonexpansive, ih, all_cons]

theorem areNonexpansiveFields_eq (fields : List (String × Expr)) :
    areNonexpansiveFields isConstructor fields =
      fields.all fun field => field.2.isNonexpansive isConstructor := by
  induction fields with
  | nil => rfl
  | cons field rest ih => rw [areNonexpansiveFields, ih, all_cons]

theorem isNonexpansive_app {function argument : Expr} (span : Span)
    (h : (app function argument span).isNonexpansive isConstructor = true) :
    ∃ long spelled, function.withoutTypes = name long spelled ∧ long.name ≠ "ref" ∧
      isConstructor long = true ∧
      argument.isNonexpansive isConstructor = true := by
  rw [isNonexpansive] at h
  split at h
  · rename_i long spelled hfunction
    simp only [Bool.and_eq_true, bne_iff_ne] at h
    exact ⟨long, spelled, hfunction, h.1.1, h.1.2, h.2⟩
  · cases h

end Expr

namespace Eval

/-- The tree stays as it is, and no exception is raised. -/
def effectless (tree : ScopeTree) : Invariant Interrupt ScopeTree Unit where
  holds after := after = tree
  measure _ := ()
  fails _ interrupt := ∀ exn, interrupt ≠ .raised exn

variable {α β : Type} {tree : ScopeTree} {scope : Scope} {bound : Unit}
  {P : Unit → α → Prop} {Q : Unit → β → Prop}

theorem effectless_fault (cause : EvalCause) (span : Span) :
    (effectless tree).Ensures bound P (fault cause span) :=
  .throw fun _ _ _ => nofun

theorem effectless_outOfSteps : (effectless tree).Ensures bound P (throw .outOfSteps) :=
  .throw fun _ _ _ => nofun

theorem effectless_look_bind {f : ScopeTree → α} {next : α → Eval β}
    (h : (effectless tree).Ensures bound Q (next (f tree))) :
    (effectless tree).Ensures bound Q (look f >>= next) := by
  rintro _ rfl hbound
  exact h _ rfl hbound

theorem effectless_fields {f : β → Eval Value} (parts : List (String × β))
    (h : ∀ part ∈ parts, (effectless tree).Keeps () (f part.2)) (values : Table Value) :
    (effectless tree).Keeps () (fields f parts values) := by
  induction parts generalizing values with
  | nil => exact .pure fun _ _ => trivial
  | cons part rest ih =>
    refine (h part (by simp)).bind fun _ _ value _ => ?_
    exact ih (fun part hpart => h part (by simp [hpart])) _

theorem effectless_function {K : Value → Prop} {long : LongName} {spelled : Span}
    (h : ∀ found, tree.dynamicValue? scope long.path long.name = some found → K found.value)
    (steps : Nat) {function : Expr} (hfunction : function.withoutTypes = .name long spelled) :
    (effectless tree).Ensures () (fun _ => K) (evalExpr steps scope function) := by
  induction steps generalizing function with
  | zero =>
    exact effectless_outOfSteps
  | succ steps ih =>
    cases function <;> simp only [withoutTypes, reduceCtorEq] at hfunction
    case name =>
      cases hfunction
      refine effectless_look_bind ?_
      split
      · exact .pure fun _ _ => h _ ‹_›
      · exact effectless_fault _ _
    case typed body type span => exact ih hfunction

theorem effectless_applyValue {function : Value}
    (h : function.isConstructor = true ∧ function ≠ .makeRef) (steps : Nat) (argument : Value) :
    (effectless tree).Keeps () (applyValue steps function argument) := by
  cases steps with
  | zero =>
    exact effectless_outOfSteps
  | succ steps =>
    cases function <;> simp only [Value.isConstructor, Bool.false_eq_true,
      false_and, ne_eq, not_true_eq_false, and_false] at h
    case constructor | exnConstructor => exact .pure fun _ _ => trivial
    case constructed | exn => exact effectless_fault _ _

theorem effectless_evalExpr (hconstructors : tree.BindsConstructors scope) (steps : Nat)
    {expr : Expr} (h : expr.isNonexpansive (tree.isStaticConstructor scope) = true) :
    (effectless tree).Keeps () (evalExpr steps scope expr) := by
  -- The evaluator recurs on the steps, and so does the proof.
  induction steps generalizing expr with
  | zero =>
    exact effectless_outOfSteps
  | succ steps ih =>
    have hall : ∀ {elements : List Expr},
        Expr.areNonexpansive (tree.isStaticConstructor scope) elements = true →
        (effectless tree).Keeps () (elements.mapM (evalExpr steps scope)) := by
      intro elements helements
      rw [areNonexpansive_eq, all_eq_true] at helements
      exact (Invariant.Ensures.mapM (fun _ _ _ _ h => h)
        fun expr hexpr _ _ => ih (helements expr hexpr)).keeps
    cases expr <;> simp only [Expr.isNonexpansive, Bool.false_eq_true] at h
    case const | selector | fn => exact .pure fun _ _ => trivial
    case name long span =>
      refine effectless_look_bind ?_
      split
      · exact .pure fun _ _ => trivial
      · exact effectless_fault _ _
    case record parts span =>
      rw [areNonexpansiveFields_eq, all_eq_true] at h
      exact (effectless_fields parts (fun part hpart => ih (h part hpart)) []).bind
          fun _ _ _ _ => .pure fun _ _ => trivial
    case tuple elements span | list elements span =>
      exact (hall h).bind fun _ _ _ _ => .pure fun _ _ => trivial
    case typed body type span => exact ih h
    case app function argument span =>
      obtain ⟨long, spelled, hfunction, hname, hlong, hargument⟩ := isNonexpansive_app span h
      refine (effectless_function (K := fun value =>
        value.isConstructor = true ∧ value ≠ .makeRef) (fun found hfound => ?_)
        steps hfunction).bind fun _ _ value hvalue => ?_
      · obtain ⟨other, hother, hvalue, href⟩ := hconstructors long hlong
        cases hfound.symm.trans hother
        exact ⟨hvalue, fun hmakes => hname (href hmakes)⟩
      · refine (ih hargument).bind fun _ _ other _ => ?_
        exact effectless_applyValue hvalue steps other

/-- Evaluating an expression whose type may be generalized leaves the whole
tree, and with it the cells, the output and the number of exceptions, as it
was, however it ends, and it does not end in an exception. -/
theorem leaves_evalExpr_of_isNonexpansive {state after : ElabState} {scope : Scope} {expr : Expr}
    (hconstructors : state.tree.BindsConstructors scope)
    (h : Elab.isNonexpansive scope expr state = .ok true after) (steps : Nat) :
    leaves (evalExpr steps scope expr) state.tree = state.tree ∧
      ∀ exn tree, evalExpr steps scope expr state.tree ≠ .error (.raised exn) tree := by
  have hnonexpansive : expr.isNonexpansive (state.tree.isStaticConstructor scope) = true := by
    injection h
  have houtcome := effectless_evalExpr hconstructors steps hnonexpansive state.tree rfl le_rfl
  unfold leaves
  cases hresult : evalExpr steps scope expr state.tree with
  | ok value tree =>
    rw [hresult] at houtcome
    exact ⟨houtcome.1, nofun⟩
  | error interrupt tree =>
    rw [hresult] at houtcome
    refine ⟨houtcome.1, ?_⟩
    rintro exn _ ⟨⟩
    exact houtcome.2.2 exn rfl

/-- A tree with a constructor that takes an argument and one that does not. -/
def twoConstructors : ScopeTree where
  frames := #[{
    statics := { values :=
      [("A", { type := .arrow .unit .unit, status := .constructor }),
        ("B", { type := .unit, status := .constructor })] }
    dynamics := { values :=
      [("A", { value := .constructor "A", status := .constructor }),
        ("B", { value := .constructed "B" none, status := .constructor })] } }]

theorem twoConstructors_names (long : LongName) : long = .simple "A" ∨ long = .simple "B" ∨
      twoConstructors.isStaticConstructor .root long = false ∧
        twoConstructors.dynamicValue? .root long.path long.name = none := by
  obtain ⟨path, name⟩ := long
  cases path with
  | nil =>
    by_cases hunary : "A" = name
    · exact .inl (by rw [← hunary, LongName.simple])
    · by_cases hnullary : "B" = name
      · exact .inr (.inl (by rw [← hnullary, LongName.simple]))
      · refine .inr (.inr ?_)
        simp [ScopeTree.isStaticConstructor, ScopeTree.staticValue?,
          ScopeTree.dynamicValue?, ScopeTree.find?, ScopeTree.findOuter?,
          ScopeTree.frame, Scope.root, twoConstructors, Table.get?, hunary,
          hnullary]
  | cons first rest => exact .inr (.inr ⟨rfl, rfl⟩)

def constructorOfList : Expr := .app (.name (.simple "A") {})
    (.list [.name (.simple "B") {}, .fn ⟨[], {}⟩ {}] {}) {}

theorem leaves_evalExpr_constructorOfList : twoConstructors.BindsConstructors .root ∧
      Elab.isNonexpansive .root constructorOfList { tree := twoConstructors } =
        .ok true { tree := twoConstructors } ∧
      leaves (evalExpr 9 .root constructorOfList) twoConstructors = twoConstructors ∧
      ∀ exn tree, evalExpr 9 .root constructorOfList twoConstructors ≠
        .error (.raised exn) tree := by
  have hconstructors : twoConstructors.BindsConstructors .root := by
    intro long hlong
    obtain rfl | rfl | ⟨hnone, -⟩ := twoConstructors_names long
    · exact ⟨_, rfl, rfl, nofun⟩
    · exact ⟨_, rfl, rfl, nofun⟩
    · cases hnone.symm.trans hlong
  have hnonexpansive : Elab.isNonexpansive .root constructorOfList
      { tree := twoConstructors } = .ok true { tree := twoConstructors } := by
    rfl
  exact ⟨hconstructors, hnonexpansive,
    leaves_evalExpr_of_isNonexpansive hconstructors hnonexpansive 9⟩

end Eval

end Sml
