import Mathlib.Order.Defs.Unbundled
import Sml.Elaboration.Monad

/-!
# What actions do to the state

Elaboration and evaluation thread a state through every phrase, and an error
keeps it.  An action advances a relation if the state it leaves, also with an
error, is related to the state it began with.  Actions that are put together
from such actions do the same, if the relation is a preorder.
-/

namespace Sml

open List

variable {ε σ α β : Type}
variable {condition : Prop}
variable {action : EStateM ε σ α} {state state' after : σ} {next f : α → EStateM ε σ β} {value : α}
  {items : List α} {body : α → PUnit → EStateM ε σ (ForInStep PUnit)}

def leaves (action : EStateM ε σ α) (state : σ) : σ :=
  match action state with
  | .ok _ state => state
  | .error _ state => state

def succeeds (action : EStateM ε σ α) (state : σ) : Bool :=
  match action state with
  | .ok _ _ => true
  | .error _ _ => false

theorem exists_of_succeeds (h : succeeds action state = true) :
    ∃ value after, action state = .ok value after := by
  rw [succeeds] at h
  split at h
  · rename_i value after hresult
    exact ⟨value, after, hresult⟩
  · cases h

def Advances (R : σ → σ → Prop) (action : EStateM ε σ α) : Prop :=
  ∀ state, R state (leaves action state)

theorem bind_eq_ok_state {result : β} (h : (action >>= next) state = .ok result state') :
    ∃ value middle, action state = .ok value middle ∧
      next value middle = .ok result state' := by
  change EStateM.bind action next state = _ at h
  rw [EStateM.bind] at h
  split at h
  · rename_i value middle haction
    exact ⟨value, middle, haction, h⟩
  · cases h

theorem bind_apply_of_ok {middle : σ} (h : action state = .ok value middle) :
    (action >>= next) state = next value middle := by
  change EStateM.bind action next state = _
  rw [EStateM.bind, h]

theorem pure_eq_ok_state {result : α} (h : (pure value : EStateM ε σ α) state = .ok result state') :
    value = result ∧ state = state' := by
  cases h
  exact ⟨rfl, rfl⟩

theorem get_bind_apply (next : σ → EStateM ε σ α) (state : σ) :
    (get >>= next) state = next state state :=
  rfl

theorem mapM_congr_state {g : α → EStateM ε σ β} (h : ∀ item ∈ items, f item = g item) :
    items.mapM f = items.mapM g := by
  induction items with
  | nil => rfl
  | cons item items ih =>
    rw [mapM_cons, h item (by simp), ih fun item hitem => h item (by simp [hitem]), mapM_cons]

namespace Advances

variable {action : EStateM ε σ α} {items : List α}

variable {R : σ → σ → Prop}

theorem of_ok (h : Advances R action) (hok : action state = .ok value state') : R state state' := by
  have hstate := h state
  rwa [leaves, hok] at hstate

theorem modifyGet {f : σ → α × σ} (h : ∀ state, R state (f state).2) :
    Advances R (modifyGet f : EStateM ε σ α) := h

theorem ite [Decidable condition] {first second : EStateM ε σ α} (hfirst : Advances R first)
    (hsecond : Advances R second) : Advances R (if condition then first else second) := by
  split
  · exact hfirst
  · exact hsecond

variable [IsPreorder σ R]

theorem pure (value : α) : Advances R (pure value : EStateM ε σ α) := fun _ => refl _

theorem throw (error : ε) : Advances R (throw error : EStateM ε σ α) := fun _ => refl _

theorem get : Advances R (get : EStateM ε σ σ) := fun _ => refl _

theorem bind (haction : Advances R action) (hnext : ∀ value, Advances R (next value)) :
    Advances R (action >>= next) := by
  intro state
  have hfirst := haction state
  change R state (leaves (EStateM.bind action next) state)
  rw [leaves] at hfirst ⊢
  rw [EStateM.bind]
  cases hresult : action state with
  | error error middle =>
    rw [hresult] at hfirst
    exact hfirst
  | ok value middle =>
    rw [hresult] at hfirst
    exact IsTrans.trans _ _ _ hfirst (hnext value middle)

theorem guarded [Decidable condition] {first : EStateM ε σ PUnit} {next : PUnit → EStateM ε σ α}
    (hfirst : Advances R first) (hnext : ∀ value, Advances R (next value)) :
    Advances R (if condition then first >>= next else next ⟨⟩) :=
  .ite (.bind hfirst hnext) (hnext ⟨⟩)

theorem map (f : α → β) (haction : Advances R action) : Advances R (f <$> action) := by
  rw [map_eq_pure_bind]
  exact haction.bind fun _ => .pure _

theorem mapM (h : ∀ item ∈ items, Advances R (f item)) : Advances R (items.mapM f) := by
  induction items with
  | nil => exact .pure _
  | cons item items ih =>
    rw [mapM_cons]
    refine (h item (by simp)).bind fun _ => ?_
    exact (ih fun item hitem => h item (by simp [hitem])).bind fun _ => .pure _

theorem forIn {f : α → β → EStateM ε σ (ForInStep β)} (start : β)
    (h : ∀ item ∈ items, ∀ value, Advances R (f item value)) :
    Advances R (forIn items start f) := by
  induction items generalizing start with
  | nil =>
    rw [forIn_nil]
    exact .pure _
  | cons item items ih =>
    rw [forIn_cons]
    refine (h item (by simp) start).bind fun step => ?_
    cases step with
    | done value => exact .pure _
    | yield value => exact ih value fun item hitem => h item (by simp [hitem])

end Advances

/-- Where the action succeeds it gives this result. -/
def Returns (result : α) (action : EStateM ε σ α) : Prop :=
  ∀ state value after, action state = .ok value after → value = result

namespace Returns

variable {result : β} {action : EStateM ε σ α} {next : α → EStateM ε σ β}

theorem pure {result : α} : Returns result (pure result : EStateM ε σ α) :=
  fun _ _ _ h => (pure_eq_ok_state h).1.symm

theorem bind (h : ∀ value, Returns result (next value)) : Returns result (action >>= next) := by
  intro state value after hok
  obtain ⟨middle, state', -, hnext⟩ := bind_eq_ok_state hok
  exact h middle _ _ _ hnext

theorem andThen {first : α} (haction : Returns first action) (hnext : Returns result (next first)) :
    Returns result (action >>= next) := by
  intro state value after hok
  obtain ⟨middle, state', hfirst, hrest⟩ := bind_eq_ok_state hok
  obtain rfl := haction _ _ _ hfirst
  exact hnext _ _ _ hrest

end Returns

theorem foldl_of_forIn {τ : Type} {P : τ → σ → Prop} {step : τ → α → τ} {start : τ} {value : PUnit}
    (hbody : ∀ item ∈ items, ∀ current middle result next, P current middle →
      body item ⟨⟩ middle = .ok result next →
      result = .yield ⟨⟩ ∧ P (step current item) next)
    (h : forIn items ⟨⟩ body state = .ok value after) (hstart : P start state) :
    P (items.foldl step start) after := by
  induction items generalizing start state with
  | nil =>
    rw [forIn_nil] at h
    exact (pure_eq_ok_state h).2 ▸ hstart
  | cons item items ih =>
    rw [forIn_cons] at h
    obtain ⟨result, middle, hitem, h⟩ := bind_eq_ok_state h
    obtain ⟨rfl, hnext⟩ := hbody item (by simp) _ _ _ _ hstart hitem
    exact ih (fun item hmem => hbody item (by simp [hmem])) h hnext

theorem of_forIn {P : σ → Prop} {value : PUnit}
    (hbody : ∀ item ∈ items, ∀ middle result next, P middle →
      body item ⟨⟩ middle = .ok result next → result = .yield ⟨⟩ ∧ P next)
    (h : forIn items ⟨⟩ body state = .ok value after) (hstart : P state) : P after :=
  @foldl_of_forIn ε σ α state after items body Unit (fun _ => P) (fun _ _ => ()) () value
    (fun item hitem _ => hbody item hitem) h hstart

end Sml
