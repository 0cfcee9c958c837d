import Mathlib.Order.Basic
import Sml.Proofs.Advance

/-!
# What runs keep

A run that begins in a state with an invariant ends in one, also when it
fails.  What it is known to give, and what it is known to fail with, may
depend on a measure of the state that never falls: what was known of a value
at an earlier measure is still known of it later.

Actions that are put together from actions that keep the invariant keep it.
-/

namespace Sml

open List

variable {condition : Prop}

structure Invariant (ε σ μ : Type) where
  holds : σ → Prop
  measure : σ → μ
  fails : μ → ε → Prop

namespace Invariant

variable {ε σ μ α β : Type} [Preorder μ] {invariant : Invariant ε σ μ}
  {bound : μ} {P : μ → α → Prop} {Q : μ → β → Prop}
variable {P' : μ → α → Prop} {next : α → EStateM ε σ β}

def Outcome (invariant : Invariant ε σ μ) (start : μ) (P : μ → α → Prop) :
    EStateM.Result ε σ α → Prop
  | .ok value after =>
    invariant.holds after ∧ start ≤ invariant.measure after ∧ P (invariant.measure after) value
  | .error error after =>
    invariant.holds after ∧ start ≤ invariant.measure after ∧
      invariant.fails (invariant.measure after) error

/-- From a measure on, the action keeps the invariant and gives what is
known. -/
def Ensures (invariant : Invariant ε σ μ) (bound : μ) (P : μ → α → Prop)
    (action : EStateM ε σ α) : Prop :=
  ∀ state, invariant.holds state → bound ≤ invariant.measure state →
    invariant.Outcome (invariant.measure state) P (action state)

abbrev Keeps (invariant : Invariant ε σ μ) (bound : μ) (action : EStateM ε σ α) : Prop :=
  invariant.Ensures bound (fun _ _ => True) action

def Lasting (P : μ → α → Prop) : Prop :=
  ∀ first second value, first ≤ second → P first value → P second value

namespace Outcome

variable {start : μ}
variable {result : EStateM.Result ε σ α}

theorem mono (h : invariant.Outcome start P result)
    (hP : ∀ later value, start ≤ later → P later value → P' later value) :
    invariant.Outcome start P' result := by
  cases result with
  | ok value after => exact ⟨h.1, h.2.1, hP _ _ h.2.1 h.2.2⟩
  | error error after => exact h

theorem after {earlier : μ} (h : invariant.Outcome start P result) (hle : earlier ≤ start) :
    invariant.Outcome earlier P result := by
  cases result with
  | ok | error => exact ⟨h.1, hle.trans h.2.1, h.2.2⟩

theorem bind {action : EStateM ε σ α} {state : σ} (h : invariant.Outcome start P (action state))
    (hnext : ∀ value middle, action state = .ok value middle →
      invariant.holds middle → start ≤ invariant.measure middle →
      P (invariant.measure middle) value →
      invariant.Outcome (invariant.measure middle) Q (next value middle)) :
    invariant.Outcome start Q ((action >>= next) state) := by
  change invariant.Outcome start Q (EStateM.bind action next state)
  unfold EStateM.bind
  cases hresult : action state with
  | ok value middle =>
    rw [hresult] at h
    exact (hnext value middle hresult h.1 h.2.1 h.2.2).after h.2.1
  | error error middle =>
    rw [hresult] at h
    exact h

end Outcome

namespace Ensures

variable {action : EStateM ε σ α} {items : List α}

theorem pure {value : α} (h : ∀ later, bound ≤ later → P later value) :
    invariant.Ensures bound P (pure value) :=
  fun _ hholds hbound => ⟨hholds, le_rfl, h _ hbound⟩

theorem throw {error : ε} (h : ∀ later, bound ≤ later → invariant.fails later error) :
    invariant.Ensures bound P (throw error) :=
  fun _ hholds hbound => ⟨hholds, le_rfl, h _ hbound⟩

theorem get : invariant.Ensures bound (fun later state => invariant.holds state ∧
        later = invariant.measure state) MonadState.get :=
  fun _ hholds _ => ⟨hholds, le_rfl, hholds, rfl⟩

theorem modify {f : σ → σ} (h : ∀ state, invariant.holds state → bound ≤ invariant.measure state →
      invariant.holds (f state) ∧ invariant.measure state ≤ invariant.measure (f state)) :
    invariant.Keeps bound (modify f) :=
  fun state hholds hbound => ⟨(h state hholds hbound).1, (h state hholds hbound).2, trivial⟩

theorem modifyGet {f : σ → α × σ}
    (h : ∀ state, invariant.holds state → bound ≤ invariant.measure state →
      invariant.holds (f state).2 ∧ invariant.measure state ≤ invariant.measure (f state).2 ∧
        P (invariant.measure (f state).2) (f state).1) : invariant.Ensures bound P (modifyGet f) :=
  h

section Outcome

variable {f : α → β} {value : β} (h : invariant.Ensures bound P action)
include h

theorem bind (hnext : ∀ later, bound ≤ later → ∀ value, P later value →
      invariant.Ensures later Q (next value)) : invariant.Ensures bound Q (action >>= next) := by
  intro state hholds hbound
  refine (h state hholds hbound).bind ?_
  intro value middle _ hmiddle hle hvalue
  exact hnext _ (hbound.trans hle) value hvalue middle hmiddle le_rfl

omit h in
theorem get_bind {next : σ → EStateM ε σ β}
    (h : ∀ state, invariant.holds state → bound ≤ invariant.measure state →
      invariant.Outcome (invariant.measure state) Q (next state state)) :
    invariant.Ensures bound Q (MonadState.get >>= next) :=
  h

theorem mono (hP : ∀ later value, bound ≤ later → P later value → P' later value) :
    invariant.Ensures bound P' action :=
  fun state hholds hbound => (h state hholds hbound).mono
    fun later value hlater => hP later value (hbound.trans hlater)

theorem keeps : invariant.Keeps bound action :=
  h.mono fun _ _ _ _ => trivial

theorem bind_pure
    (hf : ∀ later, bound ≤ later → ∀ value, P later value → Q later (f value)) :
    invariant.Ensures bound Q (action >>= fun value => Pure.pure (f value)) := by
  intro state hholds hbound
  refine (h state hholds hbound).bind fun value middle _ hmiddle hle hvalue => ?_
  exact ⟨hmiddle, le_rfl, hf _ (hbound.trans hle) value hvalue⟩

theorem discard : invariant.Keeps bound (action >>= fun _ => Pure.pure value) :=
  h.bind_pure fun _ _ _ _ => trivial

theorem returns :
    invariant.Ensures bound (fun _ other => other = value) (action >>= fun _ => Pure.pure value) :=
  h.bind_pure fun _ _ _ _ => rfl

end Outcome

theorem of_start (h : ∀ state, invariant.holds state → bound ≤ invariant.measure state →
      invariant.Ensures (invariant.measure state) P action) : invariant.Ensures bound P action :=
  fun state hholds hbound => h state hholds hbound state hholds le_rfl

theorem ite [Decidable condition] {first second : EStateM ε σ α}
    (hfirst : condition → invariant.Ensures bound P first)
    (hsecond : ¬ condition → invariant.Ensures bound P second) :
    invariant.Ensures bound P (if condition then first else second) := by
  split
  · exact hfirst ‹_›
  · exact hsecond ‹_›

theorem guarded [Decidable condition] {first : EStateM ε σ PUnit} {next : PUnit → EStateM ε σ β}
    (hfirst : invariant.Keeps bound first)
    (hnext : ∀ later, bound ≤ later → invariant.Ensures later Q (next ⟨⟩)) :
    invariant.Ensures bound Q (if condition then first >>= next else next ⟨⟩) :=
  .ite (fun _ => hfirst.bind fun later hlater _ _ => hnext later hlater) fun _ => hnext bound le_rfl

section Lists

variable (hQ : Lasting Q)
include hQ

theorem mapM {f : α → EStateM ε σ β}
    (h : ∀ item ∈ items, ∀ later, bound ≤ later → invariant.Ensures later Q (f item)) :
    invariant.Ensures bound (fun later values => ∀ value ∈ values,
      Q later value) (items.mapM f) := by
  induction items generalizing bound with
  | nil => exact .pure fun _ _ => by simp
  | cons item items ih =>
    rw [mapM_cons]
    refine (h item (by simp) bound le_rfl).bind ?_
    intro first hfirst value hvalue
    refine (ih fun item hitem later hlater => ?_).bind ?_
    · exact h item (by simp [hitem]) later (hfirst.trans hlater)
    · intro second hsecond values hvalues
      refine .pure fun last hlast other hother => ?_
      rcases mem_cons.mp hother with rfl | hother
      · exact hQ _ _ _ (hsecond.trans hlast) hvalue
      · exact hQ _ _ _ hlast (hvalues other hother)

theorem foldlM {f : β → α → EStateM ε σ β} {start : β} (hstart : Q bound start)
    (h : ∀ item ∈ items, ∀ later, bound ≤ later → ∀ value, Q later value →
      invariant.Ensures later Q (f value item)) :
    invariant.Ensures bound Q (items.foldlM f start) := by
  induction items generalizing bound start with
  | nil => exact .pure fun later hlater => hQ _ _ _ hlater hstart
  | cons item items ih =>
    rw [foldlM_cons]
    refine (h item (by simp) bound le_rfl start hstart).bind ?_
    intro middle hmiddle value hvalue
    refine ih hvalue fun item hitem later hlater => ?_
    exact h item (by simp [hitem]) later (hmiddle.trans hlater)

end Lists

theorem forM {f : α → EStateM ε σ PUnit}
    (h : ∀ item ∈ items, ∀ later, bound ≤ later → invariant.Keeps later (f item)) :
    invariant.Keeps bound (items.forM f) := by
  induction items generalizing bound with
  | nil => exact .pure fun _ _ => trivial
  | cons item items ih =>
    rw [forM_eq_forM, forM_cons]
    refine (h item (by simp) bound le_rfl).bind fun middle hmiddle _ _ => ?_
    refine ih fun item hitem later hlater => ?_
    exact h item (by simp [hitem]) later (hmiddle.trans hlater)

theorem forIn {f : α → PUnit → EStateM ε σ (ForInStep PUnit)}
    (h : ∀ item ∈ items, ∀ later, bound ≤ later → invariant.Keeps later (f item ⟨⟩)) :
    invariant.Keeps bound (forIn items ⟨⟩ f) := by
  induction items generalizing bound with
  | nil =>
    rw [forIn_nil]
    exact .pure fun _ _ => trivial
  | cons item items ih =>
    rw [forIn_cons]
    refine (h item (by simp) bound le_rfl).bind fun middle hmiddle step _ => ?_
    cases step with
    | done value => exact .pure fun _ _ => trivial
    | yield value =>
      refine ih fun item hitem later hlater => ?_
      exact h item (by simp [hitem]) later (hmiddle.trans hlater)

end Ensures

end Invariant

end Sml
