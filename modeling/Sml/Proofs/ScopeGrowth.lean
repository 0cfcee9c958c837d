import Sml.Proofs.Growth
import Sml.Proofs.OperatorScope

/-!
# Scopes that have grown

A declaration turns a scope into the same scope with new frames inside it.
These have higher levels than the scope, so what they hold is told from what
was there before, and their operators come before its own.
-/

namespace Sml

open List ScopeTree Table

variable {α : Type} {before after : ScopeTree} {frame : Frame} {scope inside : Scope}
  {table : OperatorTable}

/-- The declaration is carried out in one new frame and has no operators. -/
def Decl.IsSimple : Decl → Prop
  | .localIn .. => False
  | .seq .. => False
  | .fixity .. => False
  | _ => True

namespace Changes

/-- What these frames declare, inner ones first and nothing that is
pending. -/
def ofFrames (frames : List Frame) : Changes := frames.foldl (fun changes frame =>
      { statics := changes.statics.orElse frame.statics.settled
        dynamics := changes.dynamics.orElse frame.dynamics.settled
        fixity := orElse changes.fixity frame.fixity
        rebind := orElse changes.rebind frame.rebind })
    {}

def add (changes : Changes) (frame : Frame) : Changes where
  statics := changes.statics.orElse frame.statics.settled
  dynamics := changes.dynamics.orElse frame.dynamics.settled
  fixity := orElse changes.fixity frame.fixity
  rebind := orElse changes.rebind frame.rebind

theorem get?_ofFrames (table : Changes → Table α) (part : Frame → Table α) (hempty : table {} = [])
    (hadd : ∀ changes frame, table (changes.add frame) = orElse (table changes) (part frame))
    (frames : List Frame) (name : String) :
    get? (table (ofFrames frames)) name =
      frames.findSome? fun frame => get? (part frame) name := by
  have hfold : frames.foldl (fun found frame => orElse found (part frame)) (table {}) =
      table (frames.foldl add {}) := foldl_hom table fun changes frame => (hadd changes frame).symm
  change get? (table (frames.foldl add {})) name = _
  rw [← hfold, hempty, get?_foldl_orElse]
  rfl

end Changes

/-! ## Look-ups along a path -/

variable {tree : ScopeTree} {limit : Nat}

namespace ScopeTree

def fixityIn (tree : ScopeTree) (numbers : List Nat) (name : String) : Option Fixity :=
  numbers.findSome? fun number => get? (tree.frame number).fixity name

theorem fixityIn_append (tree : ScopeTree) (first second : List Nat) (name : String) :
    tree.fixityIn (first ++ second) name =
      (tree.fixityIn first name).or (tree.fixityIn second name) :=
  findSome?_append

theorem Steady.fixityIn_eq (h : before.Steady after) {numbers : List Nat}
    (hnumbers : ∀ number ∈ numbers, number < before.frames.size) (name : String) :
    after.fixityIn numbers name = before.fixityIn numbers name := by
  unfold fixityIn
  induction numbers with
  | nil => rfl
  | cons number numbers ih =>
    rw [findSome?_cons, findSome?_cons, h.fixity number (hnumbers number (by simp)),
      ih fun number hnumber => hnumbers number (by simp [hnumber])]

theorem get?_operators (tree : ScopeTree) (scope : Scope) (name : String) :
    get? (tree.operators scope) name = tree.fixityIn scope name := by
  have hvisible : tree.visible 0 scope = scope.map tree.frame := by
    cases scope with
    | nil => rfl
    | cons number rest =>
      rw [visible, map_cons]
      congr 1
      induction rest with
      | nil => rfl
      | cons outer rest ih => rw [map_cons, takeWhile_cons_of_pos (by simp), ih]
  rw [operators, get?_foldl_orElse, hvisible, findSome?_map]
  rfl

theorem ordered_operators (tree : ScopeTree) (scope : Scope) : Ordered (tree.operators scope) := by
  unfold operators
  suffices hfold : ∀ (frames : List Frame) (table : OperatorTable), Ordered table → Ordered
        (frames.foldl (fun table frame => orElse table frame.fixity)
          table) from hfold _ _ ordered_nil
  intro frames
  induction frames with
  | nil => exact fun _ h => h
  | cons frame frames ih => exact fun _ h => ih _ (ordered_orElse h _)

variable {scope : Scope}

theorem exists_of_findOuter? {find : Frame → Option α} {found : α}
    (h : tree.findOuter? limit find scope = some found) :
    ∃ number ∈ scope, find (tree.frame number) = some found := by
  induction scope with
  | nil => cases h
  | cons number rest ih =>
    rw [findOuter?] at h
    split at h
    · cases h
    · split at h
      · exact ⟨number, by simp, h ▸ ‹_›⟩
      · obtain ⟨other, hother, hfound⟩ := ih h
        exact ⟨other, by simp [hother], hfound⟩

theorem exists_of_find? {find : Frame → Option α} {found : α}
    (h : tree.find? limit find scope = some found) :
    ∃ number ∈ scope, find (tree.frame number) = some found := by
  cases scope with
  | nil => cases h
  | cons number rest =>
    rw [find?] at h
    split at h
    · exact ⟨number, by simp, h ▸ ‹_›⟩
    · obtain ⟨other, hother, hfound⟩ := exists_of_findOuter? h
      exact ⟨other, by simp [hother], hfound⟩

theorem exists_of_mem_visible (h : frame ∈ tree.visible limit scope) :
    ∃ number ∈ scope, frame = tree.frame number := by
  cases scope with
  | nil => cases h
  | cons number rest =>
    rcases mem_cons.mp h with rfl | h
    · exact ⟨number, by simp, rfl⟩
    · obtain ⟨other, hother, rfl⟩ := mem_map.mp ((takeWhile_sublist _).subset h)
      exact ⟨other, by simp [hother], rfl⟩

theorem changesSince_of {K : Changes → Prop} (hempty : K {})
    (hadd : ∀ changes, K changes → ∀ number ∈ scope, K (changes.add (tree.frame number)))
    (limit : Nat) : K (tree.changesSince scope limit) := by
  refine List.foldlRecOn (motive := K) _ _ hempty ?_
  intro changes hchanges frame hframe
  obtain ⟨number, hnumber, rfl⟩ := exists_of_mem_visible hframe
  exact hadd changes hchanges number hnumber

theorem visible_append (tree : ScopeTree) {added : Scope} (hadded : added ≠ [])
    (hinner : ∀ number ∈ added, limit ≤ (tree.frame number).level)
    (houter : tree.level scope < limit) :
    tree.visible limit (added ++ scope) = added.map tree.frame := by
  cases added with
  | nil => exact absurd rfl hadded
  | cons number added =>
    have hkept : ∀ frame ∈ added.map tree.frame, decide (limit ≤ frame.level) = true := by
      intro frame hframe
      obtain ⟨number, hnumber, rfl⟩ := mem_map.mp hframe
      simpa using hinner number (by simp [hnumber])
    rw [cons_append, visible, map_append, takeWhile_append_of_pos hkept, map_cons]
    cases scope with
    | nil => simp
    | cons outer rest =>
      have hstop : ¬ limit ≤ (tree.frame outer).level := by
        change (tree.frame outer).level < limit at houter
        omega
      simp [hstop]

end ScopeTree

/-! ## Scopes that have grown -/

namespace Scope

def Within (tree : ScopeTree) (scope : Scope) : Prop := ∀ number ∈ scope, number < tree.frames.size

instance (tree : ScopeTree) (scope : Scope) : Decidable (scope.Within tree) :=
  inferInstanceAs (Decidable (∀ number ∈ scope, number < tree.frames.size))

theorem Within.head (h : scope.Within tree) : ∀ number ∈ scope.head?, number < tree.frames.size :=
  fun number hnumber => h number (mem_of_mem_head? hnumber)

/-- The result is the scope with new frames inside it, all of higher level,
that hold these operators. -/
structure Extended (before : ScopeTree) (scope : Scope) (after : ScopeTree)
    (result : Scope) (table : OperatorTable) : Prop where
  steady : before.Steady after
  added : ∃ added, result = added ++ scope ∧ (∀ number ∈ added, before.frames.size ≤ number ∧
      number < after.frames.size ∧
      before.level scope < (after.frame number).level) ∧
    ∀ name, after.fixityIn added name = get? table name

namespace Extended

variable {before middle after : ScopeTree} {scope inner result : Scope}
  {table table' : OperatorTable}

theorem same (tree : ScopeTree) (scope : Scope) : Extended tree scope tree scope [] :=
  ⟨refl _, [], rfl, by simp, fun _ => rfl⟩

section Result

variable (h : Extended before scope after result table) (hscope : scope.Within before)
include h hscope

theorem within : result.Within after := by
  obtain ⟨added, rfl, hadded, -⟩ := h.added
  intro number hnumber
  rcases mem_append.mp hnumber with hnumber | hnumber
  · exact (hadded number hnumber).2.1
  · exact (hscope number hnumber).trans_le h.steady.size_le

theorem level_le : before.level scope ≤ after.level result := by
  obtain ⟨added, rfl, hadded, -⟩ := h.added
  cases added with
  | nil => exact (h.steady.level_eq hscope.head).ge
  | cons number added => exact (hadded number (by simp)).2.2.le

omit hscope in
theorem of_get? (htable : ∀ name, get? table name = get? table' name) :
    Extended before scope after result table' := by
  obtain ⟨added, hresult, hadded, hfixity⟩ := h.added
  exact ⟨h.steady, added, hresult, hadded, fun name => (hfixity name).trans (htable name)⟩

theorem get?_operators (name : String) :
    get? (after.operators result) name = (get? table name).or
        (get? (before.operators scope) name) := by
  obtain ⟨added, rfl, -, hfixity⟩ := h.added
  rw [get?_operators, fixityIn_append, hfixity, h.steady.fixityIn_eq hscope, get?_operators]

end Result

theorem trans (hfirst : Extended before scope middle inner table) (hscope : scope.Within before)
    (hsecond : Extended middle inner after result table') (htable' : Ordered table') :
    Extended before scope after result (override table table') := by
  obtain ⟨first, rfl, hadded, hfixity⟩ := hfirst.added
  obtain ⟨second, rfl, hadded', hfixity'⟩ := hsecond.added
  refine ⟨IsTrans.trans _ _ _ hfirst.steady hsecond.steady, second ++ first,
    (append_assoc _ _ _).symm, fun number hnumber => ?_, fun name => ?_⟩
  · rcases mem_append.mp hnumber with hnumber | hnumber
    · obtain ⟨hlower, hupper, hlevel⟩ := hadded' number hnumber
      exact ⟨hfirst.steady.size_le.trans hlower, hupper, (hfirst.level_le hscope).trans_lt hlevel⟩
    · obtain ⟨hlower, hupper, hlevel⟩ := hadded number hnumber
      refine ⟨hlower, hupper.trans_le hsecond.steady.size_le, ?_⟩
      rwa [hsecond.steady.level number hupper]
  · rw [fixityIn_append, hfixity', hsecond.steady.fixityIn_eq
      fun number hnumber => (hadded number hnumber).2.1, hfixity,
      get?_override _ htable']

theorem later (h : Extended before scope middle result table) (hsteady : middle.Steady after) :
    Extended before scope after result table := by
  obtain ⟨added, rfl, hadded, hfixity⟩ := h.added
  refine ⟨IsTrans.trans _ _ _ h.steady hsteady, added, rfl,
    fun number hnumber => ?_, fun name => ?_⟩
  · obtain ⟨hlower, hupper, hlevel⟩ := hadded number hnumber
    exact ⟨hlower, hupper.trans_le hsteady.size_le, (hsteady.level number hupper).symm ▸ hlevel⟩
  · rw [hsteady.fixityIn_eq fun number hnumber => (hadded number hnumber).2.1, hfixity]

end Extended

theorem extended_push (h : before.Steady after) {number : Nat}
    (hlower : before.frames.size ≤ number) (hupper : number < after.frames.size)
    (hlevel : (after.frame number).level = before.level scope + 1)
    (hfixity : ∀ name, get? (after.frame number).fixity name = get? table name) :
    Extended before scope after (number :: scope) table := by
  refine ⟨h, [number], rfl, fun other hother => ?_, fun name => ?_⟩
  · obtain rfl := mem_singleton.mp hother
    exact ⟨hlower, hupper, by omega⟩
  · rw [ScopeTree.fixityIn, findSome?_cons, hfixity]
    cases get? table name with
    | none | some => rfl

theorem extended_newFrame (hscope : scope.Within before) (hsteady : before.Steady tree)
    (hlevel : frame.level = tree.level scope + 1)
    (hfixity : ∀ name, get? frame.fixity name = get? table name) :
    Extended before scope (tree.push scope frame).2 (tree.push scope frame).1
      table := by
  have hpush : tree.Steady (tree.push scope frame).2 := (spares_push le_rfl scope frame).steady
  have hframe := tree.frame_push scope frame
  refine extended_push (IsTrans.trans _ _ _ hsteady hpush) hsteady.size_le (by simp [push]) ?_ ?_
  · rw [hframe, hlevel, hsteady.level_eq hscope.head]
  · rw [hframe]
    exact hfixity

theorem changesSince_nested (hscope : scope.Within before)
    (h : Extended (before.nested scope).2 (before.nested scope).1 after inside table) :
    ∃ added, inside = added ++ before.frames.size :: scope ∧
      (∀ number ∈ added, before.frames.size < number) ∧
      (∀ name, after.fixityIn (added ++ [before.frames.size]) name = get? table name) ∧
      after.changesSince inside (after.level (before.nested scope).1) =
        .ofFrames ((added ++ [before.frames.size]).map after.frame) := by
  have hpush : before.Steady (before.nested scope).2 := (spares_push le_rfl scope _).steady
  have hframe : (before.nested scope).2.frame before.frames.size =
      { level := before.level scope + 1 } :=
    before.frame_push scope _
  have hsize : (before.nested scope).2.frames.size = before.frames.size + 1 := by
    simp [nested, nestedAt, push]
  have hnumber : before.frames.size < (before.nested scope).2.frames.size := by omega
  have hlevel : after.level (before.nested scope).1 = before.level scope + 1 :=
    (h.steady.level _ hnumber).trans (congrArg Frame.level hframe)
  have houter : after.level scope = before.level scope :=
    (IsTrans.trans _ _ _ hpush h.steady).level_eq hscope.head
  obtain ⟨added, rfl, hadded, hfixity⟩ := h.added
  refine ⟨added, rfl, fun number hmem => ?_, fun name => ?_, ?_⟩
  · have hlower := (hadded number hmem).1
    omega
  · have hnone : after.fixityIn [before.frames.size] name = none := by
      simp [ScopeTree.fixityIn, h.steady.fixity _ hnumber, hframe]
    rw [fixityIn_append, hfixity, hnone, Option.or_none]
  · have hsplit : added ++ (before.nested scope).1 = (added ++ [before.frames.size]) ++ scope := by
      rw [append_assoc]
      rfl
    rw [hsplit, changesSince, visible_append]
    · rfl
    · simp
    · intro number hmem
      rw [hlevel]
      rcases mem_append.mp hmem with hmem | hmem
      · have hhigher := (hadded number hmem).2.2
        change ((before.nested scope).2.frame before.frames.size).level < _ at hhigher
        rw [hframe] at hhigher
        exact hhigher.le
      · obtain rfl := mem_singleton.mp hmem
        exact hlevel.ge
    · rw [houter, hlevel]
      omega

theorem get?_changesSince_nested (hscope : scope.Within before)
    (h : Extended (before.nested scope).2 (before.nested scope).1 after inside table)
    (name : String) :
    get? (after.changesSince inside (after.level (before.nested scope).1)).fixity name =
      get? table name := by
  obtain ⟨added, -, -, hfixity, hchanges⟩ := changesSince_nested hscope h
  rw [hchanges, ← hfixity, ScopeTree.fixityIn,
    Changes.get?_ofFrames Changes.fixity Frame.fixity rfl fun _ _ => rfl, findSome?_map]
  rfl

end Scope

end Sml
