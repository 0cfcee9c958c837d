import Sml.Evaluation.Eval
import Sml.Proofs.Growth

/-!
# What evaluation makes of a tree

A closure is applied in a frame inside the scope it was made in, and the body
of a functor in one inside the functor's.  Neither these scopes nor any other
frame that was there before is written to, and no type is given a number.
-/

namespace Sml

namespace ScopeTree

/-- What evaluation makes of a tree: the frames below `base` stay as they are,
the others change in nothing but what they hold for evaluation, and no type is
given a number. -/
structure Evaluated (base : Nat) (before after : ScopeTree) : Prop where
  spares : before.Spares base after
  frames : ∀ number < before.frames.size, (before.frame number).Evaluated (after.frame number)
  typeIds : after.typeIds = before.typeIds

namespace Evaluated

variable {base : Nat} {tree before middle after : ScopeTree}

theorem of_frames_eq (h : after.frames = before.frames)
    (htypeIds : after.typeIds = before.typeIds) : before.Evaluated base after := by
  refine ⟨.of_frames_eq h, fun number _ => ?_, htypeIds⟩
  rw [frame, frame, h]
  exact ⟨rfl, rfl, rfl, rfl⟩

theorem trans (hfirst : before.Evaluated base middle)
    (hsecond : middle.Evaluated base after) : before.Evaluated base after :=
  ⟨hfirst.spares.trans hsecond.spares, fun number hnumber => (hfirst.frames number hnumber).trans
      (hsecond.frames number (hnumber.trans_le hfirst.spares.size_le)),
    hsecond.typeIds.trans hfirst.typeIds⟩

theorem steady (h : before.Evaluated base after) : before.Steady after :=
  ⟨h.spares.size_le, fun number hnumber => (h.frames number hnumber).level,
    fun number hnumber => (h.frames number hnumber).fixity⟩

theorem push (h : base ≤ tree.frames.size) (scope : Scope) (frame : Frame) :
    tree.Evaluated base (tree.push scope frame).2 := by
  have hspares := spares_push (le_refl tree.frames.size) scope frame
  refine ⟨hspares.mono h, fun number hnumber => ?_, rfl⟩
  rw [hspares.frame_eq hnumber]
  exact ⟨rfl, rfl, rfl, rfl⟩

theorem write {scope : Scope} (h : scope.StartsAbove base) {f : Frame → Frame}
    (hf : ∀ frame : Frame, frame.Evaluated (f frame)) : tree.Evaluated base (tree.write scope f) :=
  ⟨tree.spares_write h f, fun _ _ => of_frame_write ⟨rfl, rfl, rfl, rfl⟩ scope
      fun frame hframe => hframe.trans (hf frame),
    tree.typeIds_write scope f⟩

end Evaluated

end ScopeTree

def ScopeTree.Grows (base : Nat) (before after : ScopeTree) : Prop :=
  base ≤ before.frames.size → before.Evaluated base after

namespace Eval

theorem declareFixity_eq (scope : Scope) (fixity : Fixity)
    (names : List String) (tree : ScopeTree) :
    declareFixity scope fixity names tree = .ok (tree.nested scope).1 (tree.push scope
          { level := tree.level scope + 1
            fixity := names.foldl (fun table name => Table.insert table name fixity) [] }).2 :=
  tree.forIn_setFixity scope id fixity names fun _ _ => rfl

end Eval

end Sml
