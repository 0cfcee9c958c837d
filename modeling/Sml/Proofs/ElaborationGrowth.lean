import Sml.Elaboration.Program
import Sml.Proofs.Growth
import Sml.Proofs.MergeFrame
import Sml.Proofs.TypeNames

/-!
# What elaboration makes of a state

Elaboration writes only to frames that it has made itself, and takes only
numbers of types from what scopes share.  The store is changed by merging
types, by records of which some fields are known, and at the end of a
declaration at top level.  Some actions leave the whole state as it is.
-/

namespace Sml

/-- What elaboration makes of a tree: the frames below `base` stay as they
are, the others keep their levels and operators, nothing is assumed of a type
that was not assumed before, and of what scopes share only numbers of types
are taken. -/
structure ScopeTree.Elaborated (base : Nat) (before after : ScopeTree) : Prop where
  spares : before.Spares base after
  steady : before.Steady after
  assumptions : ∀ number, (after.frame number).assumptions = (before.frame number).assumptions
  numbers : before.Numbers after

namespace ScopeTree.Elaborated

variable {base : Nat} {tree : ScopeTree}

theorem trans {before middle after : ScopeTree} (hfirst : before.Elaborated base middle)
    (hsecond : middle.Elaborated base after) : before.Elaborated base after :=
  ⟨hfirst.spares.trans hsecond.spares, IsTrans.trans _ _ _ hfirst.steady hsecond.steady,
    fun number =>
      (hsecond.assumptions number).trans (hfirst.assumptions number),
    IsTrans.trans _ _ _ hfirst.numbers hsecond.numbers⟩

theorem push (hbase : base ≤ tree.frames.size) (scope : Scope) {frame : Frame}
    (hframe : frame.assumptions = []) : tree.Elaborated base (tree.push scope frame).2 :=
  ⟨spares_push hbase scope frame, (spares_push le_rfl scope frame).steady,
    assumptions_push scope hframe, tree.numbers_withFrames _⟩

theorem write {scope : Scope} (hscope : scope.StartsAbove base) {f : Frame → Frame}
    (hf : ∀ frame, (f frame).level = frame.level ∧ (f frame).fixity = frame.fixity ∧
      (f frame).assumptions = frame.assumptions) : tree.Elaborated base (tree.write scope f) :=
  ⟨tree.spares_write hscope f, tree.steady_write scope fun frame => ⟨(hf frame).1, (hf frame).2.1⟩,
    tree.assumptions_write scope fun frame => (hf frame).2.2,
    tree.numbers_write scope f⟩

theorem newTypeId (name : String) : tree.Elaborated base (tree.newTypeId name).2 :=
  ⟨.of_frames_eq rfl, ⟨le_rfl, fun _ _ => rfl, fun _ _ => rfl⟩, fun _ => rfl,
    tree.numbers_newTypeId name⟩

end ScopeTree.Elaborated

structure ElabState.Elaborated (base : Nat) (before after : ElabState) : Prop
    extends before.tree.Elaborated base after.tree where
  store : before.store.Learns after.store

namespace ElabState.Elaborated

variable {base : Nat} {before middle after : ElabState}

theorem of_tree_eq (h : after.tree = before.tree) (hstore : before.store.Learns after.store) :
    before.Elaborated base after :=
  ⟨⟨.of_frames_eq (by rw [h]), h ▸ refl _, fun _ => by rw [h], h ▸ refl _⟩, hstore⟩

theorem trans (hfirst : before.Elaborated base middle)
    (hsecond : middle.Elaborated base after) : before.Elaborated base after :=
  ⟨hfirst.toElaborated.trans hsecond.toElaborated, hfirst.store.trans hsecond.store⟩

end ElabState.Elaborated

/-- Frames below `base` that are there stay as they are. -/
def ElabState.Grows (base : Nat) (before after : ElabState) : Prop :=
  base ≤ before.tree.frames.size → before.Elaborated base after

namespace Elab

section Looking

/-! ## Actions that only look -/

variable {R : ElabState → ElabState → Prop} [IsPreorder ElabState R]

theorem advances_resolve (scope : Scope) (type : Ty) : Advances R (resolve scope type) := by
  unfold resolve
  refine .bind .get fun state => ?_
  split
  · exact .pure _
  · exact .throw _

theorem advances_checkParameters (span : Span) (names : List String) :
    Advances R (checkParameters span names) := by
  have hgo : ∀ (names seen : List String), Advances R (checkParameters.go span seen names) := by
    intro names
    induction names with
    | nil => exact fun _ => .pure _
    | cons name names ih =>
      intro seen
      unfold checkParameters.go
      exact .ite (.throw _) (ih _)
  exact hgo names []

theorem advances_resolveBasis (scope : Scope) (finish : Ty → Ty) (basis : StaticBasis) :
    Advances R (resolveBasis scope finish basis) := by
  induction basis using StaticBasis.walk (fun entries =>
      Advances R (resolveStructures scope finish entries)) with
  | basis _ _ _ _ _ ih =>
    refine .bind (.mapM fun entry _ => ?_) fun _ => .bind ih fun _ => .pure _
    exact .bind (advances_resolve _ _) fun _ => .pure _
  | nil => exact .pure _
  | cons entry entries ih ihEntries =>
    exact .bind ih fun _ => .bind ihEntries fun _ => .pure _

theorem advances_type (scope : Scope) (mode : VariableMode)
    (written : TypeExpr) : Advances R (type scope mode written) := by
  unfold type
  refine .bind .get fun state => ?_
  dsimp only
  split
  · exact .pure _
  · exact .throw _

theorem advances_constructorEntries (result : Scope) (binding : DatBind)
    (head : TyCon) (constructors : List ConBind) (declared : List String) :
    Advances R (constructorEntries result binding head constructors declared) := by
  induction constructors generalizing declared with
  | nil => exact .pure _
  | cons constructor constructors ih =>
    unfold constructorEntries
    refine .guarded (.throw _) fun _ => ?_
    refine .bind ?_ fun argument => .bind (ih _) fun _ => .pure _
    cases constructor.argument with
    | none => exact .pure _
    | some written => exact .map _ (advances_type _ _ _)

theorem advances_groupEntries (result : Scope) (bindings : List (DatBind × TyCon))
    (declared : List String) : Advances R (groupEntries result bindings declared) := by
  induction bindings generalizing declared with
  | nil => exact .pure _
  | cons entry bindings ih =>
    refine .bind (advances_constructorEntries _ _ _ _ _) fun entries => ?_
    exact .bind (ih _) fun _ => .pure _

end Looking

/-! ## Operators -/

theorem fixityDecl_eq (inner : Inner) (scope : Scope) (fixity : Fixity)
    (names : List String) (span : Span) (state : ElabState) :
    declRule inner scope (.fixity fixity names span) state = .ok (state.tree.nested scope).1
        { state with
          tree := (state.tree.push scope
            { level := state.tree.level scope + 1
              fixity := names.foldl (fun table name => Table.insert table name fixity)
                  [] }).2 } :=
  state.tree.forIn_setFixity scope (σ := ElabState) ({ state with tree := · }) fixity names
    fun _ _ => rfl

end Elab

end Sml
