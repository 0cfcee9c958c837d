import Sml.Proofs.ElaborationHygiene
import Sml.Proofs.EvaluationStamps
import Sml.Session.Interpret

/-!
# An input leaves what is there as it is

Whatever an input comes to, every frame that was there before it holds what it
held.  An input that is not evaluated, because it is wrong or because
evaluation is switched off, leaves nothing behind but numbers of types that
are not given again.
-/

namespace Sml

variable {base steps : Nat} {before after : ScopeTree} {options : Options} {session : Session}

def InputError.precedesEvaluation : InputError → Bool
  | .comment _ | .lexical _ | .read _ | .elaboration _ => true
  | .evaluation _ | .outOfSteps => false

theorem elaborateInput_grows (options : Options) (program : Program) (session : Session) :
    session.tree.Elaborated session.tree.frames.size
      (elaborateInput options program session).2 := by
  unfold elaborateInput
  by_cases hskip : options.skipElaboration = true
  · rw [if_pos hskip]
    exact ⟨.of_frames_eq rfl, refl _, fun _ => rfl, refl _⟩
  · rw [if_neg hskip]
    have hgrows := grows_elabProgram session.scope program
      (.start session.tree session.scope options.strict)
      (le_refl session.tree.frames.size)
    unfold leaves at hgrows
    cases hresult : elabProgram session.scope program
        (.start session.tree session.scope options.strict) with
    | ok | error =>
      rw [hresult] at hgrows
      exact hgrows.toElaborated

/-- Frames below `base` stay as they are, and numbers of types that were given
are not given again. -/
structure ScopeTree.Outgrown (base : Nat) (before after : ScopeTree) : Prop where
  spares : before.Spares base after
  typeIds : ∀ name, before.peekTypeId name ≤ after.peekTypeId name

theorem ScopeTree.Outgrown.evaluated {middle : ScopeTree} (hfirst : before.Outgrown base middle)
    (hsecond : middle.Evaluated base after) : before.Outgrown base after := by
  refine ⟨hfirst.spares.trans hsecond.spares, fun name => ?_⟩
  have hsame : after.peekTypeId name = middle.peekTypeId name := by
    unfold peekTypeId
    rw [hsecond.typeIds]
  exact hsame ▸ hfirst.typeIds name

theorem interpretProgram_outgrows (steps : Nat) (options : Options)
    (program : Program) (session : Session) :
    session.tree.Outgrown session.tree.frames.size
      (interpretProgram steps options program session).2 := by
  unfold interpretProgram
  have hgrows := elaborateInput_grows options program session
  have helaborated : ScopeTree.Outgrown _ _ _ := ⟨hgrows.spares, hgrows.numbers.typeIds⟩
  rcases hresult : elaborateInput options program session with
    ⟨error | ⟨scope, warnings⟩, tree⟩
  · rw [hresult] at helaborated
    exact helaborated
  · rw [hresult] at helaborated
    simp only
    by_cases hskip : options.skipEvaluation = true
    · rw [if_pos hskip]
      exact helaborated
    · rw [if_neg hskip]
      have hevaluated := Eval.grows_evalProgram steps scope program tree helaborated.spares.size_le
      unfold leaves at hevaluated
      cases heval : evalProgram steps scope program tree with
      | ok scope after =>
        rw [heval] at hevaluated
        exact helaborated.evaluated hevaluated
      | error interrupt after =>
        rw [heval] at hevaluated
        cases interrupt with
        | raised | fault | outOfSteps => exact helaborated.evaluated hevaluated

theorem interpretTokens_outgrows (steps : Nat) (options : Options)
    (tokens : List Token) (session : Session) :
    session.tree.Outgrown session.tree.frames.size
      (interpretTokens steps options tokens session).2 := by
  unfold interpretTokens
  cases readTokens tokens (session.tree.operators session.scope) with
  | error error => exact ⟨.of_frames_eq rfl, fun _ => le_rfl⟩
  | ok program => exact interpretProgram_outgrows steps options program session

theorem interpret_outgrows (steps : Nat) (options : Options) (source : String) (session : Session) :
    session.tree.Outgrown session.tree.frames.size (interpret steps options source session).2 := by
  unfold interpret
  cases tokensOf source with
  | error error => exact ⟨.of_frames_eq rfl, fun _ => le_rfl⟩
  | ok tokens => exact interpretTokens_outgrows steps options tokens session

theorem interpretProgram_numbers {program : Program}
    (h : (∃ error, (interpretProgram steps options program session).1 =
        .error error ∧ error.precedesEvaluation = true) ∨
      options.skipEvaluation = true) :
    session.tree.Numbers (interpretProgram steps options program session).2 := by
  unfold interpretProgram at h ⊢
  have helaborated := (elaborateInput_grows options program session).numbers
  rcases hresult : elaborateInput options program session with
    ⟨error | ⟨scope, warnings⟩, tree⟩
  · rw [hresult] at helaborated
    exact helaborated
  · rw [hresult] at helaborated h
    simp only at h ⊢
    by_cases hskip : options.skipEvaluation = true
    · rw [if_pos hskip]
      exact helaborated
    · -- Evaluation took place, so no earlier error is left.
      rw [if_neg hskip] at h
      exfalso
      obtain ⟨error, herror, hprecedes⟩ := h.resolve_right hskip
      cases heval : evalProgram steps scope program tree with
      | ok scope after => simp [heval] at herror
      | error interrupt after =>
        cases interrupt with
        | raised exn => simp [heval] at herror
        | fault | outOfSteps =>
          simp only [heval, Except.error.injEq] at herror
          simp [← herror, InputError.precedesEvaluation] at hprecedes

theorem interpret_numbers {source : String}
    (h : (∃ error, (interpret steps options source session).1 = .error error ∧
        error.precedesEvaluation = true) ∨ options.skipEvaluation = true) :
    session.tree.Numbers (interpret steps options source session).2 := by
  unfold interpret at h ⊢
  cases htokens : tokensOf source with
  | error error => exact refl _
  | ok tokens =>
    rw [htokens] at h
    simp only at h ⊢
    unfold interpretTokens at h ⊢
    cases hread : readTokens tokens (session.tree.operators session.scope) with
    | error error => exact refl _
    | ok program =>
      rw [hread] at h
      exact interpretProgram_numbers h

theorem interpret_disturbs_nothing (steps : Nat) (options : Options)
    (source : String) (session : Session) :
    (∀ number < session.tree.frames.size,
      (interpret steps options source session).2.frames[number]? = session.tree.frames[number]?) ∧
    ((∃ error, (interpret steps options source session).1 = .error error ∧
        error.precedesEvaluation = true) ∨ options.skipEvaluation = true →
      session.tree.Numbers (interpret steps options source session).2) :=
  ⟨(interpret_outgrows steps options source session).spares.kept, interpret_numbers⟩

/-- Declarations that are elaborated and not evaluated add frames, and no
more is changed. -/
theorem interpret_unevaluated_disturbs_nothing :
    (interpret 0 { skipEvaluation := true } "datatype t = A val x = ref A" .basic).1.isOk = true ∧
    Session.basic.tree.frames.size + 1 <
      (interpret 0 { skipEvaluation := true } "datatype t = A val x = ref A" .basic).2.frames.size ∧
    Session.basic.tree.Numbers
      (interpret 0 { skipEvaluation := true } "datatype t = A val x = ref A" .basic).2 := by
  refine ⟨by decide +kernel, by decide +kernel, ?_⟩
  exact (interpret_disturbs_nothing 0 { skipEvaluation := true } _ .basic).2 (.inr rfl)

/-- The input is elaborated. -/
def Session.accepts (session : Session) (source : String) : Bool :=
  (interpret 0 { skipEvaluation := true } source session).1.isOk

/-- A constructor that has become a variable is bound anew by a later input
only. -/
theorem accepts_rebound : Session.basic.accepts
      "datatype t = A of int fun A x = x; val rec A = fn x => x" = false ∧
    (Session.basic.load 9 "datatype t = A of int fun A x = x").accepts
      "val rec A = fn x => x" = true := by
  decide +kernel

end Sml
