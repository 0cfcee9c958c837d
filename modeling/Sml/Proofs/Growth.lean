import Mathlib.Order.Nat
import Sml.Proofs.Advance
import Sml.Proofs.Table

/-!
# How a scope tree grows

A phrase is elaborated and evaluated in frames of its own.  A tree spares its
frames below a number if it only gets new frames and only those from the
number on are written to.  Of what all scopes share, elaboration takes nothing
but numbers of types.
-/

namespace Sml

open Array

variable {base number : Nat} {before after tree : ScopeTree} {f : Frame → Frame}
variable {scope : Scope} {frame : Frame}

namespace ScopeTree

structure Spares (base : Nat) (before after : ScopeTree) : Prop where
  size_le : before.frames.size ≤ after.frames.size
  kept : ∀ number < base, after.frames[number]? = before.frames[number]?

theorem Spares.of_frames_eq (h : after.frames = before.frames) : before.Spares base after :=
  ⟨by rw [h], fun _ _ => by rw [h]⟩

theorem Spares.trans {middle : ScopeTree} (hfirst : before.Spares base middle)
    (hsecond : middle.Spares base after) : before.Spares base after := by
  refine ⟨hfirst.size_le.trans hsecond.size_le, fun number hnumber => ?_⟩
  rw [hsecond.kept number hnumber, hfirst.kept number hnumber]

theorem Spares.mono {lower : Nat} (h : before.Spares base after) (hlower : lower ≤ base) :
    before.Spares lower after :=
  ⟨h.size_le, fun number hnumber => h.kept number (by omega)⟩

theorem Spares.frame_eq (h : before.Spares base after) (hnumber : number < base) :
    after.frame number = before.frame number := by
  unfold frame
  rw [h.kept number hnumber]

theorem spares_push (h : base ≤ tree.frames.size) (scope : Scope) (frame : Frame) :
    tree.Spares base (tree.push scope frame).2 := by
  constructor
  · simp [push]
  · intro number hnumber
    have hlt : number < tree.frames.size := by omega
    simp [push, getElem?_push, Nat.ne_of_lt hlt]

theorem spares_modifyFrame (h : base ≤ number) (tree : ScopeTree) (f : Frame → Frame) :
    tree.Spares base (tree.modifyFrame number f) := by
  constructor
  · simp [modifyFrame]
  · intro other hother
    have hne : number ≠ other := by omega
    simp [modifyFrame, getElem?_modify, hne]

structure Steady (before after : ScopeTree) : Prop where
  size_le : before.frames.size ≤ after.frames.size
  level : ∀ number < before.frames.size, (after.frame number).level = (before.frame number).level
  fixity : ∀ number < before.frames.size, (after.frame number).fixity = (before.frame number).fixity

instance : IsPreorder ScopeTree Steady where
  refl _ := ⟨le_rfl, fun _ _ => rfl, fun _ _ => rfl⟩
  trans _ _ _ hfirst hsecond := ⟨hfirst.size_le.trans hsecond.size_le, fun number hnumber =>
        (hsecond.level number (hnumber.trans_le hfirst.size_le)).trans
          (hfirst.level number hnumber),
      fun number hnumber =>
        (hsecond.fixity number (hnumber.trans_le hfirst.size_le)).trans
          (hfirst.fixity number hnumber)⟩

theorem Steady.level_eq (h : before.Steady after)
    (hscope : ∀ number ∈ scope.head?, number < before.frames.size) :
    after.level scope = before.level scope := by
  cases scope with
  | nil => rfl
  | cons number rest => exact h.level number (hscope number rfl)

theorem frame_push (tree : ScopeTree) (scope : Scope) (frame : Frame) :
    (tree.push scope frame).2.frame tree.frames.size = frame := by
  simp [push, ScopeTree.frame]

theorem frame_push_of_ne (tree : ScopeTree) (scope : Scope) (frame : Frame)
    (h : number ≠ tree.frames.size) :
    (tree.push scope frame).2.frame number = tree.frame number := by
  simp [push, ScopeTree.frame, getElem?_push, h]

theorem assumptions_push (scope : Scope) (h : frame.assumptions = []) (number : Nat) :
    ((tree.push scope frame).2.frame number).assumptions = (tree.frame number).assumptions := by
  by_cases hnew : number = tree.frames.size
  · rw [hnew, frame_push, h, ScopeTree.frame, getElem?_eq_none (Nat.le_refl _)]
    rfl
  · rw [frame_push_of_ne _ _ _ hnew]

theorem Spares.steady (h : before.Spares before.frames.size after) : before.Steady after :=
  ⟨h.size_le, fun _ hnumber => by rw [h.frame_eq hnumber],
    fun _ hnumber => by rw [h.frame_eq hnumber]⟩

variable (tree)

theorem frame_modifyFrame (number other : Nat)
    (f : Frame → Frame) (hother : other < tree.frames.size) :
    (tree.modifyFrame number f).frame other =
      if number = other then f (tree.frame other) else tree.frame other := by
  unfold frame modifyFrame
  simp only [getElem?_modify]
  split
  · simp [hother]
  · rfl

theorem frame_modifyFrame_of_ne {other : Nat} (f : Frame → Frame)
    (h : number ≠ other) : (tree.modifyFrame number f).frame other = tree.frame other := by
  simp [frame, modifyFrame, getElem?_modify, h]

theorem modifyFrame_of_le (f : Frame → Frame) (h : tree.frames.size ≤ number) :
    tree.modifyFrame number f = tree := by
  simp only [modifyFrame]
  congr 1
  refine ext_getElem? fun other => ?_
  rw [getElem?_modify]
  split
  · rename_i heq
    subst heq
    simp [getElem?_eq_none h]
  · rfl

theorem steady_modifyFrame (number : Nat)
    (h : ∀ frame, (f frame).level = frame.level ∧ (f frame).fixity = frame.fixity) :
    tree.Steady (tree.modifyFrame number f) := by
  refine ⟨by simp [modifyFrame], fun other hother => ?_, fun other hother => ?_⟩
  · rw [frame_modifyFrame _ _ _ _ hother]
    split
    · exact (h _).1
    · rfl
  · rw [frame_modifyFrame _ _ _ _ hother]
    split
    · exact (h _).2
    · rfl

/-- Only numbers of types have been taken from what all scopes share. -/
structure Numbers (before after : ScopeTree) : Prop where
  memory : after.memory = before.memory
  exceptionIds : after.exceptionIds = before.exceptionIds
  output : after.output = before.output
  typeIds : ∀ name, before.peekTypeId name ≤ after.peekTypeId name

instance : IsPreorder ScopeTree Numbers where
  refl _ := ⟨rfl, rfl, rfl, fun _ => le_rfl⟩
  trans _ _ _ hfirst hsecond := ⟨hsecond.memory.trans hfirst.memory,
      hsecond.exceptionIds.trans hfirst.exceptionIds,
      hsecond.output.trans hfirst.output,
      fun name => (hfirst.typeIds name).trans (hsecond.typeIds name)⟩

theorem numbers_withFrames (frames : Array Frame) : tree.Numbers { tree with frames } :=
  ⟨rfl, rfl, rfl, fun _ => le_rfl⟩

theorem peekTypeId_newTypeId (name other : String) : (tree.newTypeId name).2.peekTypeId other =
      tree.peekTypeId other + if name = other then 1 else 0 := by
  unfold newTypeId peekTypeId
  simp only [Table.get?_insert]
  split
  · rename_i heq
    rw [heq]
    rfl
  · rfl

theorem numbers_newTypeId (name : String) : tree.Numbers (tree.newTypeId name).2 := by
  refine ⟨rfl, rfl, rfl, fun other => ?_⟩
  rw [peekTypeId_newTypeId]
  omega

end ScopeTree

namespace Scope

def StartsAbove (base : Nat) (scope : Scope) : Prop := ∀ number ∈ scope.head?, base ≤ number

theorem startsAbove_push (h : base ≤ tree.frames.size) (scope : Scope) (frame : Frame) :
    StartsAbove base (tree.push scope frame).1 := by
  intro number hnumber
  simp only [ScopeTree.push, List.head?_cons, Option.mem_some_iff] at hnumber
  omega

end Scope

/-- Adding values to a frame changes neither its level nor its operators, and
assumes nothing. -/
theorem Frame.installStatics_steady (basis : StaticBasis) (frame : Frame) :
    (frame.installStatics basis).level = frame.level ∧
      (frame.installStatics basis).fixity = frame.fixity ∧
      (frame.installStatics basis).assumptions = frame.assumptions := by
  exact List.foldlRecOn (motive := fun other : Frame => other.level = frame.level ∧
    other.fixity = frame.fixity ∧ other.assumptions = frame.assumptions) basis.values _
    ⟨rfl, rfl, rfl⟩ fun _ hother _ _ => hother

/-- A frame that evaluation has written to keeps its level, its operators and
what elaboration left there. -/
structure Frame.Evaluated (before after : Frame) : Prop where
  level : after.level = before.level
  fixity : after.fixity = before.fixity
  statics : after.statics = before.statics
  context : after.context = before.context

theorem Frame.Evaluated.trans {before middle after : Frame} (hfirst : before.Evaluated middle)
    (hsecond : middle.Evaluated after) : before.Evaluated after :=
  ⟨hsecond.level.trans hfirst.level, hsecond.fixity.trans hfirst.fixity,
    hsecond.statics.trans hfirst.statics, hsecond.context.trans hfirst.context⟩

theorem Frame.evaluated_installDynamics (basis : DynamicBasis)
    (frame : Frame) : frame.Evaluated (frame.installDynamics basis) := by
  have htypes : frame.Evaluated (basis.types.foldl
      (fun frame entry => frame.setDynamicType entry.1 entry.2) frame) :=
    List.foldlRecOn (motive := frame.Evaluated) _ _ ⟨rfl, rfl, rfl, rfl⟩
      fun _ hother _ _ => hother.trans ⟨rfl, rfl, rfl, rfl⟩
  have hvalues := List.foldlRecOn (motive := frame.Evaluated) basis.values
    (fun frame entry => frame.setDynamicValue entry.1 entry.2) htypes
    fun _ hother _ _ => hother.trans ⟨rfl, rfl, rfl, rfl⟩
  exact hvalues.trans ⟨rfl, rfl, rfl, rfl⟩

variable {Q : Frame → Prop}

namespace ScopeTree

theorem spares_write (h : scope.StartsAbove base) (tree : ScopeTree) (f : Frame → Frame) :
    tree.Spares base (tree.write scope f) := by
  cases scope with
  | nil => exact .of_frames_eq rfl
  | cons number rest => exact spares_modifyFrame (h number rfl) tree f

variable (tree) (scope)

theorem write_write (f g : Frame → Frame) :
    (tree.write scope f).write scope g = tree.write scope (g ∘ f) := by
  cases scope with
  | nil => rfl
  | cons number rest =>
    simp only [write, modifyFrame]
    congr 1
    refine ext_getElem? fun other => ?_
    simp only [getElem?_modify]
    split
    · simp
    · rfl

theorem write_id : tree.write scope id = tree := by
  cases scope with
  | nil => rfl
  | cons number rest =>
    simp only [write, modifyFrame]
    congr 1
    refine ext_getElem? fun other => ?_
    simp only [getElem?_modify, Option.map_id, id_eq, ite_self]

theorem write_push (frame : Frame) (f : Frame → Frame) :
    (tree.push scope frame).2.write (tree.push scope frame).1 f =
      (tree.push scope (f frame)).2 := by
  simp only [push, write, modifyFrame]
  congr 1
  refine ext_getElem? fun other => ?_
  simp only [getElem?_modify, getElem?_push]
  by_cases hother : tree.frames.size = other
  · simp [hother]
  · simp [hother, Ne.symm hother]

/-- A loop that declares operators in a new scope, whatever state the tree is
part of. -/
theorem forIn_setFixity {ε σ : Type} (put : ScopeTree → σ) {step : String → EStateM ε σ PUnit}
    (fixity : Fixity) (names : List String) (h : ∀ name tree', step name (put tree') =
      .ok ⟨⟩ (put (tree'.write (tree.nested scope).1 (·.setFixity name fixity)))) :
    (do
        for name in names do
          step name
        return (tree.nested scope).1 : EStateM ε σ Scope) (put (tree.nested scope).2) =
      .ok (tree.nested scope).1 (put (tree.push scope
        { level := tree.level scope + 1
          fixity := names.foldl (fun table name => Table.insert table name fixity) [] }).2) := by
  have hloop : ∀ tree', (do
        for name in names do
          step name
        return (tree.nested scope).1 : EStateM ε σ Scope) (put tree') =
      .ok (tree.nested scope).1 (put (tree'.write (tree.nested scope).1 fun frame =>
        { frame with
          fixity := names.foldl (fun table name => Table.insert table name fixity)
            frame.fixity })) := by
    induction names with
    | nil => exact fun tree' => congrArg (EStateM.Result.ok _ ∘ put) (write_id tree' _).symm
    | cons name names ih =>
      intro tree'
      rw [List.forIn_cons, bind_assoc, bind_assoc]
      change EStateM.bind (step name) _ _ = _
      rw [EStateM.bind, h]
      exact (ih _).trans (congrArg (EStateM.Result.ok _ ∘ put) (write_write _ _ _ _))
  exact (hloop _).trans (congrArg (EStateM.Result.ok _ ∘ put) (tree.write_push scope _ _))

theorem steady_write
    (h : ∀ frame, (f frame).level = frame.level ∧ (f frame).fixity = frame.fixity) :
    tree.Steady (tree.write scope f) := by
  cases scope with
  | nil => exact refl _
  | cons number rest => exact tree.steady_modifyFrame number h

theorem assumptions_write (h : ∀ frame, (f frame).assumptions = frame.assumptions) (number : Nat) :
    ((tree.write scope f).frame number).assumptions = (tree.frame number).assumptions := by
  cases scope with
  | nil => rfl
  | cons first rest =>
    simp only [write, frame, modifyFrame, getElem?_modify]
    split
    · cases tree.frames[number]? with
      | none => rfl
      | some found => exact h found
    · rfl

theorem size_write (f : Frame → Frame) : (tree.write scope f).frames.size = tree.frames.size := by
  cases scope with
  | nil => rfl
  | cons number rest => simp [write, modifyFrame]

theorem typeIds_write (f : Frame → Frame) : (tree.write scope f).typeIds = tree.typeIds := by
  cases scope with
  | nil | cons => rfl

theorem numbers_write (f : Frame → Frame) : tree.Numbers (tree.write scope f) := by
  cases scope with
  | nil => exact refl _
  | cons number rest => exact tree.numbers_withFrames _

variable {tree}

theorem of_frame_push (h : Q (tree.frame number)) (scope : Scope) (hframe : Q frame) :
    Q ((tree.push scope frame).2.frame number) := by
  by_cases hnumber : number = tree.frames.size
  · rw [hnumber, frame_push]
    exact hframe
  · rw [frame_push_of_ne _ _ _ hnumber]
    exact h

theorem of_frame_modifyFrame (h : Q (tree.frame number)) (changed : Nat)
    (hf : ∀ frame, Q frame → Q (f frame)) : Q ((tree.modifyFrame changed f).frame number) := by
  rcases lt_or_ge number tree.frames.size with hlt | hge
  · rw [frame_modifyFrame _ _ _ _ hlt]
    split
    · exact hf _ h
    · exact h
  · by_cases hchanged : changed = number
    · rw [modifyFrame_of_le _ _ (hchanged ▸ hge)]
      exact h
    · rw [frame_modifyFrame_of_ne _ _ hchanged]
      exact h

theorem of_frame_write (h : Q (tree.frame number)) (scope : Scope)
    (hf : ∀ frame, Q frame → Q (f frame)) : Q ((tree.write scope f).frame number) := by
  cases scope with
  | nil => exact h
  | cons changed rest => exact of_frame_modifyFrame h changed hf

end ScopeTree

/-! ## Looking up along a path -/

variable {α : Type}

theorem findSome?_congr {ι : Type} {find other : ι → Option α} {items : List ι}
    (h : ∀ item ∈ items, find item = other item) :
    items.findSome? find = items.findSome? other := by
  induction items with
  | nil => rfl
  | cons item items ih =>
    rw [List.findSome?_cons, List.findSome?_cons, h item (by simp),
      ih fun item hitem => h item (by simp [hitem])]

namespace ScopeTree

theorem findOuter?_zero (tree : ScopeTree) (find : Frame → Option α) (scope : Scope) :
    tree.findOuter? 0 find scope = scope.findSome? fun number => find (tree.frame number) := by
  induction scope with
  | nil => rfl
  | cons number rest ih =>
    rw [findOuter?, List.findSome?_cons, ih]
    simp only [Nat.not_lt_zero, if_false]
    cases find (tree.frame number) <;> rfl

theorem find?_zero (tree : ScopeTree) (find : Frame → Option α) (scope : Scope) :
    tree.find? 0 find scope = scope.findSome? fun number => find (tree.frame number) := by
  cases scope with
  | nil => rfl
  | cons number rest =>
    rw [find?, findOuter?_zero, List.findSome?_cons]
    cases find (tree.frame number) <;> rfl

theorem find?_eq_of_frames (h : ∀ number ∈ scope, after.frame number = before.frame number)
    (find : Frame → Option α) : after.find? 0 find scope = before.find? 0 find scope := by
  rw [find?_zero, find?_zero]
  exact findSome?_congr fun number hnumber => by rw [h number hnumber]

end ScopeTree

end Sml
