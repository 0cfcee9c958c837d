import Sml.Proofs.ElaborationHygiene

/-!
# The operators after elaboration

A declaration is elaborated to the scope it began with and new frames inside
it.  The operators of these frames are those that the declaration leaves by
the rules of scope.
-/

namespace Sml

open Hygiene

variable {scope result : Scope} {state after : ElabState}

/-! ## Declarations -/

def Extends (step : Scope → Decl → Elab Scope) : Prop :=
  ∀ (scope : Scope) (declaration : Decl) (state : ElabState) (result : Scope)
    (after : ElabState), scope.Within state.tree →
    step scope declaration state = .ok result after →
    scope.Extended state.tree after.tree result declaration.operators

theorem Extends.foldlM {step : Scope → Decl → Elab Scope} (hstep : Extends step)
    {declarations : List Decl} (hscope : scope.Within state.tree)
    (h : declarations.foldlM step scope state = .ok result after) :
    scope.Extended state.tree after.tree result (Decl.operatorsOfList declarations) := by
  induction declarations generalizing scope state with
  | nil =>
    obtain ⟨rfl, rfl⟩ := pure_eq_ok_state h
    exact .same _ _
  | cons declaration rest ih =>
    rw [List.foldlM_cons] at h
    obtain ⟨inside, middle, hfirst, hrest⟩ := bind_eq_ok_state h
    have hextended := hstep _ _ _ _ _ hscope hfirst
    exact hextended.trans hscope (ih (hextended.within hscope) hrest)
      (Decl.ordered_operatorsOfList rest)

namespace Elab

section Rules

variable {inner : Inner} (hkeeps : ∀ hygiene, inner.KeepsTo hygiene) (hinner : Extends inner.decl)
  {scope result : Scope} {state after : ElabState} (hscope : scope.Within state.tree)

include hscope

theorem extended_of_declares {action : Elab Scope}
    (haction : ∀ {bound}, (any state.tree.frames.size scope).Declares bound scope action)
    (h : action state = .ok result after) : scope.Extended state.tree after.tree result [] := by
  obtain ⟨number, rfl, hlower, hupper, hlevel, hfixity⟩ :=
    (opened_of_declares le_rfl haction h).frame hscope.head
  refine Scope.extended_push ((grows_of_ensures haction).of_ok h le_rfl).steady
    hlower hupper hlevel fun name => ?_
  rw [hfixity]

theorem extended_specifications {specs : List Spec}
    (h : specifications scope specs state = .ok result after) :
    scope.Extended state.tree after.tree result [] := by
  induction specs generalizing scope state with
  | nil =>
    obtain ⟨rfl, rfl⟩ := pure_eq_ok_state h
    exact .same _ _
  | cons spec rest ih =>
    obtain ⟨inside, middle, hspec, hrest⟩ := bind_eq_ok_state h
    have hextended := extended_of_declares hscope (declares_specification_any spec) hspec
    exact hextended.trans hscope (ih (hextended.within hscope) hrest) Table.ordered_nil

include hinner

theorem extended_localIn {hidden body : Decl} {span : Span}
    (h : declRule inner scope (.localIn hidden body span) state = .ok result after) :
    scope.Extended state.tree after.tree result (Decl.localIn hidden body span).operators := by
  unfold declRule at h
  obtain ⟨within, middle, hhidden, h⟩ := bind_eq_ok_state h
  obtain ⟨mark, marked, hmark, h⟩ := bind_eq_ok_state h
  cases hmark
  obtain ⟨inside, final, hbody, h⟩ := bind_eq_ok_state h
  obtain ⟨changes, final', hlook, h⟩ := bind_eq_ok_state h
  cases hlook
  cases h
  have hbefore := hinner _ _ _ _ _ hscope hhidden
  have hwithin := hbefore.within hscope
  have hpush : middle.tree.Steady (middle.tree.nested within).2 :=
    (ScopeTree.spares_push le_rfl within _).steady
  have hextended := hinner _ _ _ _ _
    ((Scope.extended_newFrame hwithin (refl _) rfl fun _ => rfl).within hwithin)
    hbody
  have hsteady := IsTrans.trans _ _ _ (IsTrans.trans _ _ _ hbefore.steady hpush) hextended.steady
  refine Scope.extended_newFrame hscope hsteady rfl fun name => ?_
  rw [Decl.operators]
  exact Scope.get?_changesSince_nested hwithin hextended name

include hkeeps

theorem extended_declRule {declaration : Decl}
    (h : declRule inner scope declaration state = .ok result after) :
    scope.Extended state.tree after.tree result declaration.operators := by
  have hdeclares := fun hsimple => extended_of_declares hscope
    (declares_declRule (hkeeps _) covers_any
      (declaration.writtenWith_of_forall fun _ => trivial) hsimple) h
  cases declaration with
  | localIn hidden body span => exact extended_localIn hinner hscope h
  | seq declarations span => exact hinner.foldlM hscope h
  | fixity status names span =>
    rw [fixityDecl_eq] at h
    cases h
    exact Scope.extended_newFrame hscope (refl _) rfl fun _ => rfl
  | _ => exact hdeclares trivial

end Rules

end Elab

/-! ## Programs -/

theorem extends_elabDecl (height : Nat) : Extends (elabDecl height) := by
  induction height with
  | zero =>
    intro scope declaration state result after _ h
    cases h
  | succ height ih =>
    intro scope declaration state result after hscope h
    exact Elab.extended_declRule (fun hygiene => keepsTo_inner hygiene height) ih hscope h

theorem extends_elabComplete : Extends elabComplete := by
  intro scope declaration state result after hscope h
  unfold elabComplete at h
  obtain ⟨inside, middle, hdeclaration, h⟩ := bind_eq_ok_state h
  obtain ⟨_, checked, hchecked, h⟩ := bind_eq_ok_state h
  obtain ⟨rfl, rfl⟩ := pure_eq_ok_state h
  have hgrows : Advances (ElabState.Grows 0) (Elab.checkFlexible inside) :=
    grows_of_ensures (keeps_checkFlexible covers_any)
  exact (extends_elabDecl _ _ _ _ _ _ hscope hdeclaration).later
    (hgrows.of_ok hchecked (Nat.zero_le _)).steady

theorem Elab.extended_settle {before : ScopeTree} {inner : Scope} {changes : Changes}
    (hscope : scope.Within before) (hsteady : before.Steady state.tree)
    (h : settle scope inner changes state = .ok result after) :
    scope.Extended before after.tree result changes.fixity := by
  unfold settle at h
  obtain ⟨statics, resolved, hresolved, h⟩ := bind_eq_ok_state h
  obtain ⟨inside, changed, hchanged, hlast⟩ := bind_eq_ok_state h
  have hwritten : changed.tree.Steady after.tree ∧ result = inside := by
    constructor
    · cases hlast
      exact changed.tree.steady_write _ fun _ => ⟨rfl, rfl⟩
    · exact Returns.bind (fun _ => .bind fun _ => .bind fun _ => .pure) _ _ _ hlast
  have hresolved : state = resolved := (advances_resolveBasis _ _ _).of_ok hresolved
  cases hchanged
  obtain ⟨hwritten, rfl⟩ := hwritten
  exact (Scope.extended_newFrame hscope (hresolved ▸ hsteady) rfl fun _ => rfl).later hwritten

theorem extends_elabTopLevel : Extends elabTopLevel := by
  intro scope declaration state result after hscope h
  unfold elabTopLevel at h
  obtain ⟨_, start, hstart, h⟩ := bind_eq_ok_state h
  cases hstart
  obtain ⟨group, grouped, hgroup, h⟩ := bind_eq_ok_state h
  cases hgroup
  obtain ⟨inside, middle, hdeclaration, h⟩ := bind_eq_ok_state h
  obtain ⟨changes, looked, hlooked, h⟩ := bind_eq_ok_state h
  cases hlooked
  have hgroup : scope.Extended state.tree (state.tree.nested scope).2
      (state.tree.nested scope).1 [] :=
    Scope.extended_newFrame hscope (refl _) rfl fun _ => rfl
  have hinside := extends_elabComplete _ _ _ _ _ (hgroup.within hscope) hdeclaration
  have hsettled := Elab.extended_settle hscope (IsTrans.trans _ _ _ hgroup.steady hinside.steady) h
  exact hsettled.of_get? (Scope.get?_changesSince_nested hscope hinside)

theorem extended_elabProgram {program : Program} (hscope : scope.Within state.tree)
    (h : elabProgram scope program state = .ok result after) :
    scope.Extended state.tree after.tree result program.operators :=
  extends_elabTopLevel.foldlM hscope h

end Sml
