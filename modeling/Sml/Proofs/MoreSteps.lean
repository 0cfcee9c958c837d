import Sml.Evaluation.Eval
import Sml.Proofs.Advance

/-!
# More steps

An evaluation that does not run out of steps has the same result, and leaves
the same tree, however many more steps it is given.
-/

namespace Sml

open List

namespace Eval

variable {α β : Type} {first second third : Eval α} {next next' : α → Eval β} {tree : ScopeTree}

/-- The second action does as the first wherever that does not run out of
steps. -/
def Refines (first second : Eval α) : Prop :=
  ∀ tree, (∃ after, first tree = .error .outOfSteps after) ∨ first tree = second tree

namespace Refines

theorem refl (action : Eval α) : Refines action action := fun _ => .inr rfl

theorem outOfSteps (action : Eval α) : Refines (throw .outOfSteps) action :=
  fun tree => .inl ⟨tree, rfl⟩

section

variable (h : Refines first second)
include h

theorem trans (h' : Refines second third) : Refines first third := by
  intro tree
  rcases h tree with hout | hsame
  · exact .inl hout
  · rw [hsame]
    exact h' tree

theorem bind (hnext : ∀ value, Refines (next value) (next' value)) :
    Refines (first >>= next) (second >>= next') := by
  intro tree
  change (∃ after, EStateM.bind first next tree = _) ∨
    EStateM.bind first next tree = EStateM.bind second next' tree
  rw [EStateM.bind, EStateM.bind]
  rcases h tree with ⟨after, hout⟩ | hsame
  · exact .inl ⟨after, by rw [hout]⟩
  · rw [← hsame]
    cases first tree with
    | error interrupt after => exact .inr rfl
    | ok value after => exact hnext value after

theorem andThen (next : α → Eval β) : Refines (first >>= next) (second >>= next) :=
  h.bind fun _ => refl _

theorem catching {handler handler' : Value → Eval α}
    (hhandler : ∀ exn, Refines (handler exn) (handler' exn)) :
    Refines (catching first handler) (Eval.catching second handler') := by
  intro tree
  rw [Eval.catching, Eval.catching]
  rcases h tree with ⟨after, hout⟩ | hsame
  · exact .inl ⟨after, by rw [hout]⟩
  · rw [← hsame]
    cases first tree with
    | ok value after => exact .inr rfl
    | error interrupt after =>
      cases interrupt with
      | raised exn => exact hhandler exn after
      | fault | outOfSteps => exact .inr rfl

end

/-- The same action first, whatever follows. -/
theorem after (action : Eval α) (hnext : ∀ value, Refines (next value) (next' value)) :
    Refines (action >>= next) (action >>= next') :=
  (refl action).bind hnext

variable {f g : α → Eval β}

theorem mapM (h : ∀ item, Refines (f item) (g item)) (items : List α) :
    Refines (items.mapM f) (items.mapM g) := by
  induction items with
  | nil => exact refl _
  | cons item items ih =>
    rw [mapM_cons, mapM_cons]
    exact (h item).bind fun _ => ih.andThen _

theorem foldlM {f g : β → α → Eval β} (h : ∀ value item, Refines (f value item) (g value item))
    (items : List α) (start : β) : Refines (items.foldlM f start) (items.foldlM g start) := by
  induction items generalizing start with
  | nil => exact refl _
  | cons item items ih =>
    rw [foldlM_cons, foldlM_cons]
    exact (h start item).bind ih

theorem forM {f g : α → Eval PUnit} (h : ∀ item, Refines (f item) (g item)) (items : List α) :
    Refines (items.forM f) (items.forM g) := by
  induction items with
  | nil => exact refl _
  | cons item items ih => exact (h item).bind fun _ => ih

theorem fields {f g : α → Eval Value} (h : ∀ item, Refines (f item) (g item))
    (parts : List (String × α)) (values : Table Value) :
    Refines (fields f parts values) (Eval.fields g parts values) := by
  induction parts generalizing values with
  | nil => exact refl _
  | cons part parts ih => exact (h part.2).bind fun _ => ih _

end Refines

/-! ## One step more -/

/-- With one step more the evaluators do as with this many, unless these run
out. -/
structure Refined (steps : Nat) : Prop where
  expr : ∀ scope expr, Refines (evalExpr steps scope expr) (evalExpr (steps + 1) scope expr)
  rules : ∀ scope rules value otherwise, Refines (evalMatch steps scope rules value otherwise)
    (evalMatch (steps + 1) scope rules value otherwise)
  application : ∀ function argument, Refines (applyValue steps function argument)
    (applyValue (steps + 1) function argument)
  bindings : ∀ scope result bindings, Refines (evalBindings steps scope result bindings)
    (evalBindings (steps + 1) scope result bindings)
  decl : ∀ scope declaration, Refines (evalDecl steps scope declaration)
    (evalDecl (steps + 1) scope declaration)
  str : ∀ scope body, Refines (evalStr steps scope body) (evalStr (steps + 1) scope body)

namespace Refined

open Refines

variable {steps : Nat} (h : Refined steps)
include h

/-- A choice between two evaluations by the truth of a third. -/
theorem choice {scope : Scope} {test : Expr} {yes no yes' no' : Eval Value}
    (hyes : Refines yes yes') (hno : Refines no no') :
    Refines (evalExpr steps scope test >>= fun value => truth value >>= fun answer =>
        if answer = true then yes else no)
      (evalExpr (steps + 1) scope test >>= fun value => truth value >>= fun answer =>
        if answer = true then yes' else no') := by
  refine (h.expr scope test).bind fun value => .after _ fun answer => ?_
  cases answer with
  | true => exact hyes
  | false => exact hno

theorem refines_expr (scope : Scope) (expr : Expr) :
    Refines (evalExpr (steps + 1) scope expr) (evalExpr (steps + 2) scope expr) := by
  unfold evalExpr
  cases expr with
  | const | name | selector | fn => exact refl _
  | record parts span => exact (Refines.fields (h.expr scope) parts []).andThen _
  | tuple elements span | list elements span =>
    exact (Refines.mapM (h.expr scope) elements).andThen _
  | app function argument span =>
    refine (h.expr scope function).bind fun function => ?_
    exact (h.expr scope argument).bind fun argument => h.application function argument
  | typed body annotation span => exact h.expr scope body
  | andAlso left right span => exact h.choice (h.expr scope right) (refl _)
  | orElse left right span => exact h.choice (refl _) (h.expr scope right)
  | cond test yes no span => exact h.choice (h.expr scope yes) (h.expr scope no)
  | caseOf scrutinee rules span =>
    exact (h.expr scope scrutinee).bind fun value => h.rules scope rules value _
  | letIn declaration body span =>
    exact (h.decl scope declaration).bind fun inside => h.expr inside body
  | raise exn span => exact (h.expr scope exn).andThen _
  | handle body rules span =>
    exact (h.expr scope body).catching fun exn => h.rules scope rules exn exn
  | seq expressions span => exact foldlM (fun _ => h.expr scope) expressions _
  | loop test body span =>
    exact h.choice ((h.expr scope body).bind fun _ => h.expr scope _) (refl _)

theorem refines_rules (scope : Scope) (rules : Match Expr) (value otherwise : Value) :
    Refines (evalMatch (steps + 1) scope rules value otherwise)
      (evalMatch (steps + 2) scope rules value otherwise) := by
  unfold evalMatch
  refine .after _ fun choice => .after _ fun found => ?_
  cases found with
  | none => exact refl _
  | some found => exact .after _ fun inner => h.expr inner found.2

theorem refines_application (function argument : Value) :
    Refines (applyValue (steps + 1) function argument)
      (applyValue (steps + 2) function argument) := by
  unfold applyValue
  cases function with
  | closure rules scope => exact h.rules scope rules argument _
  | _ => exact refl _

theorem refines_bindings (scope result : Scope) (bindings : List (ValBind Expr)) :
    Refines (evalBindings (steps + 1) scope result bindings)
      (evalBindings (steps + 2) scope result bindings) := by
  unfold evalBindings
  exact forM (fun binding => (h.expr scope binding.body).andThen _) bindings

theorem refines_decl (scope : Scope) (declaration : Decl) :
    Refines (evalDecl (steps + 1) scope declaration)
      (evalDecl (steps + 2) scope declaration) := by
  unfold evalDecl
  cases declaration with
  | val recursive parameters bindings span =>
    cases recursive with
    | false => exact .after _ fun result => (h.bindings scope result bindings).andThen _
    | true => exact refl _
  | localIn hidden body span =>
    refine (h.decl scope hidden).bind fun inside => .after _ fun mark => ?_
    exact (h.decl mark body).andThen _
  | seq declarations span => exact foldlM h.decl declarations scope
  | structures bindings span =>
    exact (mapM (fun binding => (h.str scope binding.body).andThen _) bindings).andThen _
  | _ => exact refl _

theorem refines_str (scope : Scope) (body : StrExp) :
    Refines (evalStr (steps + 1) scope body) (evalStr (steps + 2) scope body) := by
  unfold evalStr
  cases body with
  | body declaration span => exact .after _ fun mark => (h.decl mark declaration).andThen _
  | name long span => exact refl _
  | ascribed hides body signature span => exact (h.str scope body).andThen _
  | apply name argument span =>
    refine .after _ fun found => ?_
    cases found with
    | none => exact refl _
    | some functor =>
      refine (h.str scope argument).bind fun basis => .after _ fun inner => .after _ fun _ => ?_
      exact h.str inner functor.body
  | letIn declaration body span =>
    exact (h.decl scope declaration).bind fun inside => h.str inside body

end Refined

theorem refined (steps : Nat) : Refined steps := by
  induction steps with
  | zero =>
    constructor
    · intro scope expr
      exact .outOfSteps _
    · intro scope rules value otherwise
      exact .outOfSteps _
    · intro function argument
      exact .outOfSteps _
    · intro scope result bindings
      exact .outOfSteps _
    · intro scope declaration
      exact .outOfSteps _
    · intro scope body
      exact .outOfSteps _
  | succ steps ih =>
    exact ⟨ih.refines_expr, ih.refines_rules, ih.refines_application, ih.refines_bindings,
      ih.refines_decl, ih.refines_str⟩

/-! ## How an action ends -/

/-- More steps do not change what an action does unless it runs out of
them. -/
def Settles (action : Nat → Eval α) : Prop :=
  ∀ steps, Refines (action steps) (action (steps + 1))

theorem settles_expr (scope : Scope) (expr : Expr) : Settles (evalExpr · scope expr) :=
  fun steps => (refined steps).expr scope expr

/-- With enough steps the action ends in this way. -/
def Ends (action : Nat → Eval α) (tree : ScopeTree)
    (result : EStateM.Result Interrupt ScopeTree α) : Prop :=
  (∀ after, result ≠ .error .outOfSteps after) ∧ ∃ steps, action steps tree = result

variable {action action' : Nat → Eval α} {next : Nat → α → Eval β}
  {result : EStateM.Result Interrupt ScopeTree α} {result' : EStateM.Result Interrupt ScopeTree β}

theorem Settles.refines (h : Settles action) {steps more : Nat} (hle : steps ≤ more) :
    Refines (action steps) (action more) := by
  induction hle with
  | refl => exact .refl _
  | step _ ih => exact ih.trans (h _)

theorem Settles.bind (h : Settles action) (hnext : ∀ value, Settles (next · value)) :
    Settles fun steps => action steps >>= next steps :=
  fun steps => (h steps).bind fun value => hnext value steps

theorem Ends.exists_all (h : Ends action tree result) (haction : Settles action) :
    ∃ steps, ∀ more, steps ≤ more → action more tree = result := by
  obtain ⟨hresult, steps, rfl⟩ := h
  refine ⟨steps, fun more hle => ?_⟩
  rcases haction.refines hle tree with ⟨after, hout⟩ | hsame
  · exact absurd hout (hresult after)
  · exact hsame.symm

theorem ends_congr (h : ∀ steps, action steps tree = action' steps tree) :
    Ends action tree result ↔ Ends action' tree result := by
  simp only [Ends, h]

theorem ends_add (haction : Settles action) (count : Nat) :
    Ends (fun steps => action (steps + count)) tree result ↔ Ends action tree result := by
  constructor
  · rintro ⟨hresult, steps, hsteps⟩
    exact ⟨hresult, steps + count, hsteps⟩
  · intro h
    obtain ⟨steps, hall⟩ := h.exists_all haction
    exact ⟨h.1, steps, hall _ (by omega)⟩

/-- One action after another ends as the second does after the first, or as
the first if that fails. -/
theorem ends_bind (haction : Settles action) (hnext : ∀ value, Settles (next · value)) :
    Ends (fun steps => action steps >>= next steps) tree result' ↔
      (∃ value middle, Ends action tree (.ok value middle) ∧
        Ends (next · value) middle result') ∨
      ∃ interrupt after, Ends action tree (.error interrupt after) ∧
        result' = .error interrupt after := by
  constructor
  · rintro ⟨hresult, steps, rfl⟩
    change ∀ after, EStateM.bind _ _ tree ≠ _ at hresult
    change (∃ value middle, _ ∧ Ends _ _ (EStateM.bind _ _ tree)) ∨
      ∃ interrupt after, _ ∧ EStateM.bind _ _ tree = _
    rw [EStateM.bind] at hresult ⊢
    cases haction : action steps tree with
    | ok value middle =>
      rw [haction] at hresult
      exact .inl ⟨value, middle, ⟨nofun, steps, haction⟩, hresult, steps, rfl⟩
    | error interrupt after =>
      rw [haction] at hresult
      refine .inr ⟨interrupt, after, ⟨?_, steps, haction⟩, rfl⟩
      rintro _ ⟨⟩
      exact hresult after rfl
  · rintro (⟨value, middle, hfirst, hsecond⟩ | ⟨interrupt, after, hfirst, rfl⟩)
    · obtain ⟨steps, hall⟩ := hfirst.exists_all haction
      obtain ⟨steps', hall'⟩ := hsecond.exists_all (hnext value)
      refine ⟨hsecond.1, steps + steps', ?_⟩
      exact (bind_apply_of_ok (hall _ (by omega))).trans (hall' _ (by omega))
    · obtain ⟨steps, hall⟩ := hfirst.exists_all haction
      refine ⟨fun after h => hfirst.1 after (by cases h; rfl), steps, ?_⟩
      change EStateM.bind _ _ tree = _
      rw [EStateM.bind, hall steps (Nat.le_refl _)]

end Eval

end Sml
