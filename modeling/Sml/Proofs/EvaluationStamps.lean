import Sml.Proofs.EvaluationGrowth
import Sml.Proofs.Invariant
import Sml.Proofs.Primitives
import Sml.Proofs.ScopeGrowth

/-!
# Evaluation gives its numbers in order

Evaluation writes only to frames that it has made itself.  If every cell and
every exception that is mentioned anywhere in a tree exists, evaluation keeps
that, however it ends: what it finds in frames, cells and values is known
already, and a new number is counted when it is given.  So no reference is
without a cell.
-/

namespace Sml

open DynamicBasis ScopeTree Invariant.Ensures

variable {basis : DynamicBasis} {address : Nat}
variable {f : Frame → Frame} {scope : Scope} {path : List String} {value : Value}
  {action : Eval Scope} {β : Type}

namespace ScopeTree

def counters (tree : ScopeTree) : Counters := ⟨tree.memory.size, tree.exceptionIds⟩

theorem counters_write (tree : ScopeTree) (scope : Scope)
    (f : Frame → Frame) : (tree.write scope f).counters = tree.counters := by
  have hnumbers := tree.numbers_write scope f
  rw [counters, hnumbers.memory, hnumbers.exceptionIds]
  rfl

/-- All stamps in the frames and cells of the tree have been given, and so
have those of the exceptions that evaluation raises itself. -/
structure Known (tree : ScopeTree) : Prop where
  frames : ∀ number, (tree.frame number).dynamics.Known tree.counters
  memory : ∀ value ∈ tree.memory, value.Known tree.counters
  basic : ∀ exn : BasicExn, exn.id < tree.exceptionIds

namespace Known

variable {tree : ScopeTree} (h : tree.Known)
include h

theorem exn (exn : BasicExn) : exn.value.Known tree.counters :=
  Value.known_exn.mpr ⟨h.basic exn, by simp⟩

theorem push (scope : Scope) {frame : Frame} (hframe : frame.dynamics.Known tree.counters) :
    (tree.push scope frame).2.Known :=
  { h with
    frames := fun number => of_frame_push (Q := fun frame => frame.dynamics.Known tree.counters)
      (h.frames number) scope hframe }

theorem write (scope : Scope)
    (hf : ∀ frame, frame.dynamics.Known tree.counters → (f frame).dynamics.Known tree.counters) :
    (tree.write scope f).Known := by
  have hnumbers := tree.numbers_write scope f
  refine ⟨fun number => ?_, ?_, ?_⟩
  · rw [counters_write]
    exact of_frame_write (Q := fun frame => frame.dynamics.Known tree.counters)
      (h.frames number) scope hf
  · rw [counters_write, hnumbers.memory]
    exact h.memory
  · rw [hnumbers.exceptionIds]
    exact h.basic

/-! ## Looking up -/

theorem dynamicStructure? (hfound : tree.dynamicStructure? scope path = some basis) :
    basis.Known tree.counters := by
  cases path with
  | nil => cases hfound
  | cons first rest =>
    obtain ⟨outer, houter, hrest⟩ := Option.bind_eq_some_iff.mp hfound
    obtain ⟨number, -, hentry⟩ := exists_of_find? houter
    have hknown := (h.frames number).struct hentry
    cases rest with
    | nil =>
      cases hrest
      exact hknown
    | cons second rest => exact known_findIn (known_iff.mp hknown).2 hrest

theorem dynamicValue? {name : String} {value : DynamicValue}
    (hfound : tree.dynamicValue? scope path name = some value) :
    value.value.Known tree.counters := by
  cases path with
  | nil =>
    rw [dynamicValue?] at hfound
    obtain ⟨number, -, hentry⟩ := exists_of_find? hfound
    exact (h.frames number).value hentry
  | cons first rest =>
    obtain ⟨basis, hbasis, hentry⟩ := Option.bind_eq_some_iff.mp hfound
    exact (h.dynamicStructure? hbasis).value hentry

theorem changesSince (scope : Scope) (limit : Nat) :
    (tree.changesSince scope limit).dynamics.Known tree.counters :=
  changesSince_of (K := fun changes => changes.dynamics.Known tree.counters)
    known_empty
    (fun _ hchanges number _ => hchanges.orElse (h.frames number).settled)
    limit

theorem load? (haddress : address < tree.memory.size) :
    ∃ value, tree.load? address = some value ∧ value.Known tree.counters :=
  ⟨tree.memory[address], by simp [ScopeTree.load?, haddress],
    h.memory _ (Array.getElem_mem haddress)⟩

theorem matchEnv (scope : Scope) : (tree.matchEnv scope).Known tree.counters :=
  fun _ haddress => h.load? haddress

end Known

end ScopeTree

namespace Frame

variable {counters : Counters} {frame : Frame} (hframe : frame.dynamics.Known counters)
include hframe

theorem known_setDynamicValue (name : String) {value : DynamicValue}
    (hvalue : value.value.Known counters) :
    (frame.setDynamicValue name value).dynamics.Known counters := by
  rw [known_iff] at hframe ⊢
  exact ⟨Table.forall_mem_insert (K := fun value : DynamicValue => value.value.Known counters)
    hframe.1 hvalue, hframe.2⟩

theorem known_setDynamicStructure (name : String) (hbasis : basis.Known counters) :
    (frame.setDynamicStructure name basis).dynamics.Known counters := by
  rw [known_iff] at hframe ⊢
  exact ⟨hframe.1, Table.forall_mem_insert hframe.2 hbasis⟩

theorem known_installDynamics (hbasis : basis.Known counters) :
    (frame.installDynamics basis).dynamics.Known counters := by
  have htypes : (basis.types.foldl (fun frame entry => frame.setDynamicType entry.1 entry.2)
      frame).dynamics.Known counters :=
    List.foldlRecOn (motive := fun frame : Frame => frame.dynamics.Known counters)
      basis.types _ hframe fun frame hframe _ _ => hframe.congr rfl rfl
  have hvalues : (basis.values.foldl (fun frame entry => frame.setDynamicValue entry.1 entry.2)
      (basis.types.foldl (fun frame entry => frame.setDynamicType entry.1 entry.2)
        frame)).dynamics.Known counters :=
    List.foldlRecOn (motive := fun frame : Frame => frame.dynamics.Known counters)
      basis.values _ htypes fun frame hframe entry hentry =>
        known_setDynamicValue hframe entry.1 ((known_iff.mp hbasis).1 entry hentry)
  rw [known_iff] at hvalues hbasis ⊢
  refine ⟨hvalues.1, fun entry hentry => ?_⟩
  exact (Table.mem_of_mem_override hentry).elim (hvalues.2 entry) (hbasis.2 entry)

end Frame

/-! ## The invariant -/

/-- What stops evaluation mentions nothing unknown and is no reference without
a cell. -/
def Interrupt.Known (counters : Counters) : Interrupt → Prop
  | .raised exn => exn.Known counters
  | .fault error => ∀ address, error.cause ≠ .dangling address
  | .outOfSteps => True

variable {argument : Value}

namespace Eval

structure Watch where
  base : Nat
  trusted : Prop

namespace Watch

structure Stage (watch : Watch) where
  tree : ScopeTree

def Stage.counters {watch : Watch} (stage : watch.Stage) : Counters :=
  stage.tree.counters

/-- Numbers are given in order, and only frames that evaluation has made are
written to. -/
instance (watch : Watch) : Preorder watch.Stage where
  le before after := before.counters ≤ after.counters ∧ before.tree.Evaluated watch.base after.tree
  le_refl _ := ⟨le_rfl, .of_frames_eq rfl rfl⟩
  le_trans _ _ _ hfirst hsecond := ⟨hfirst.1.trans hsecond.1, hfirst.2.trans hsecond.2⟩

section Definitions

variable (watch : Watch)

structure Holds (tree : ScopeTree) : Prop where
  size : watch.base ≤ tree.frames.size
  known : watch.trusted → tree.Known

def invariant : Invariant Interrupt ScopeTree watch.Stage where
  holds := watch.Holds
  measure := Stage.mk
  fails stage interrupt := watch.trusted → interrupt.Known stage.counters

def Knows (stage : watch.Stage) (value : Value) : Prop := watch.trusted → value.Known stage.counters

def KnowsBasis (stage : watch.Stage) (basis : DynamicBasis) : Prop :=
  watch.trusted → basis.Known stage.counters

/-- The scope with a frame that has been made since and holds only what is
declared for evaluation. -/
structure Opened (scope : Scope) (before after : watch.Stage) (result : Scope) : Prop where
  above : result.StartsAbove watch.base
  frame : (∀ number ∈ scope.head?, number < before.tree.frames.size) →
    ∃ number, result = number :: scope ∧
      before.tree.frames.size ≤ number ∧ number < after.tree.frames.size ∧
      Frame.Evaluated { level := before.tree.level scope + 1 } (after.tree.frame number)

variable (bound : watch.Stage)

abbrev Ensures {α : Type} (P : watch.Stage → α → Prop) (action : Eval α) :
    Prop :=
  watch.invariant.Ensures bound P action

abbrev Keeps {α : Type} (action : Eval α) : Prop := watch.invariant.Keeps bound action

/-! What actions give. -/

abbrev GivesValue (action : Eval Value) : Prop := watch.Ensures bound watch.Knows action

abbrev GivesBasis (action : Eval DynamicBasis) : Prop := watch.Ensures bound watch.KnowsBasis action

abbrev Declares (scope : Scope) (action : Eval Scope) : Prop :=
  watch.Ensures bound (watch.Opened scope bound) action

end Definitions

variable {α : Type} {watch : Watch} {bound next : watch.Stage} {scope : Scope}

theorem Knows.later (h : watch.Knows bound value) (hle : bound ≤ next) : watch.Knows next value :=
  fun htrusted => (h htrusted).later hle.1

theorem KnowsBasis.later (h : watch.KnowsBasis bound basis) (hle : bound ≤ next) :
    watch.KnowsBasis next basis :=
  fun htrusted => (h htrusted).later hle.1

theorem KnowsBasis.restrict (h : watch.KnowsBasis bound basis) (interface : Interface) :
    watch.KnowsBasis bound (basis.restrict interface) :=
  fun htrusted => (h htrusted).restrict interface

theorem lasting_value : Invariant.Lasting watch.Knows := fun _ _ _ hle h => h.later hle

theorem givesValue_pure (h : watch.Knows bound value) : watch.GivesValue bound (pure value) :=
  .pure fun _ hlater => h.later hlater

section Ensures

variable {P : watch.Stage → α → Prop}

theorem ensures_fault {cause : EvalCause} {span : Span} (h : ∀ address, cause ≠ .dangling address) :
    watch.Ensures bound P (fault cause span) :=
  .throw fun _ _ _ => h

theorem ensures_raise {exn : Value} (h : watch.Knows bound exn) :
    watch.Ensures bound P (throw (.raised exn)) :=
  .throw fun _ hlater => h.later hlater

theorem ensures_raiseBasic (exn : BasicExn) : watch.Ensures bound P (raiseBasic exn) :=
  .of_start fun _ hholds _ => ensures_raise fun htrusted => (Holds.known hholds htrusted).exn exn

theorem ensures_orFault {K : α → Prop} {result : Except EvalError α}
    (h : watch.trusted → Safe K result) :
    watch.Ensures bound (fun _ value => watch.trusted → K value) (orFault result) := by
  cases result with
  | ok value => exact .pure fun _ _ => h
  | error error => exact .throw fun _ _ => h

theorem ensures_look_bind {f : ScopeTree → α} {next : α → Eval β} {Q : watch.Stage → β → Prop}
    (h : ∀ tree, watch.Holds tree → bound ≤ ⟨tree⟩ → watch.Ensures ⟨tree⟩ Q (next (f tree))) :
    watch.Ensures bound Q (look f >>= next) :=
  fun tree hholds hbound => h tree hholds hbound tree hholds le_rfl

theorem ensures_catching {action : Eval α} {handler : Value → Eval α}
    (haction : watch.Ensures bound P action)
    (hhandler : ∀ later, bound ≤ later → ∀ exn, watch.Knows later exn →
      watch.Ensures later P (handler exn)) : watch.Ensures bound P (catching action handler) := by
  intro tree hholds hbound
  have hfirst := haction tree hholds hbound
  unfold catching
  cases hresult : action tree with
  | ok value after =>
    rw [hresult] at hfirst
    exact hfirst
  | error interrupt after =>
    rw [hresult] at hfirst
    cases interrupt with
    | raised exn =>
      obtain ⟨hafter, hle, hexn⟩ := hfirst
      exact (hhandler _ (hbound.trans hle) exn hexn after hafter le_rfl).after hle
    | fault | outOfSteps => exact hfirst

end Ensures

/-! ## Frames -/

namespace Opened

variable {first middle last : watch.Stage} {result : Scope}

theorem later (h : watch.Opened scope first middle result)
    (hle : middle ≤ last) : watch.Opened scope first last result := by
  refine { h with frame := fun hscope => ?_ }
  obtain ⟨number, hresult, hlower, hupper, hframe⟩ := h.frame hscope
  exact ⟨number, hresult, hlower, hupper.trans_le hle.2.spares.size_le,
    hframe.trans (hle.2.frames number hupper)⟩

theorem sooner (h : watch.Opened scope middle last result)
    (hle : first ≤ middle) : watch.Opened scope first last result := by
  refine { h with frame := fun hscope => ?_ }
  have hsteady := hle.2.steady
  obtain ⟨number, hresult, hlower, hupper, hframe⟩ := h.frame
    fun number hnumber => (hscope number hnumber).trans_le hsteady.size_le
  rw [hsteady.level_eq hscope] at hframe
  exact ⟨number, hresult, hsteady.size_le.trans hlower, hupper, hframe⟩

end Opened

theorem Declares.after (h : watch.Declares next scope action) (hle : bound ≤ next) :
    watch.Ensures next (watch.Opened scope bound) action :=
  h.mono fun _ _ _ hresult => hresult.sooner hle

theorem ensures_push {P : watch.Stage → Scope → Prop} (frame : ScopeTree → Frame)
    (hframe : ∀ tree, watch.Holds tree → bound ≤ ⟨tree⟩ → watch.trusted →
      (frame tree).dynamics.Known tree.counters)
    (hresult : ∀ tree, watch.Holds tree → bound ≤ ⟨tree⟩ →
      P ⟨(tree.push scope (frame tree)).2⟩ (tree.push scope (frame tree)).1) :
    watch.Ensures bound P (modifyGet fun tree : ScopeTree => tree.push scope (frame tree)) :=
  .modifyGet fun tree hholds hbound =>
    ⟨⟨(Holds.size hholds).trans (by simp [push]), fun htrusted =>
        (Holds.known hholds htrusted).push scope (hframe tree hholds hbound htrusted)⟩,
      ⟨le_rfl, .push (Holds.size hholds) scope _⟩, hresult tree hholds hbound⟩

theorem declares_nested (scope : Scope) : watch.Declares bound scope (nested scope) := by
  refine ensures_push (fun tree => { level := tree.level scope + 1 })
    (fun _ _ _ _ => known_empty) fun tree hholds hbound => ?_
  refine Opened.sooner ⟨Scope.startsAbove_push hholds.size scope _,
    fun _ => ⟨tree.frames.size, rfl, le_rfl, by simp [push], ?_⟩⟩ hbound
  rw [tree.frame_push]
  exact ⟨rfl, rfl, rfl, rfl⟩

theorem declares_nested_bind (scope : Scope) {rest : Scope → Eval Scope}
    (hrest : ∀ later, bound ≤ later → ∀ result, watch.Opened scope bound later result →
      watch.Ensures later (fun _ value => value = result) (rest result)) :
    watch.Declares bound scope (nested scope >>= rest) :=
  (declares_nested scope).bind fun later hlater result hresult =>
    (hrest later hlater result hresult).mono fun _ _ hle hvalue => hvalue ▸ hresult.later hle

theorem keeps_enter (scope : Scope) {values : Bindings}
    (h : ∀ entry ∈ values, watch.Knows bound entry.2) : watch.Keeps bound (enter scope values) := by
  refine ensures_push _ (fun tree _ hbound htrusted => ?_) fun _ _ _ => trivial
  refine List.foldlRecOn (motive := fun frame : Frame => frame.dynamics.Known tree.counters)
    values _ known_empty fun frame hframe entry hentry => ?_
  exact Frame.known_setDynamicValue hframe entry.1 ((h entry hentry).later hbound htrusted)

theorem keeps_withChanges (scope : Scope) {changes : Changes}
    (h : watch.KnowsBasis bound changes.dynamics) : watch.Keeps bound (withChanges scope changes) :=
  ensures_push _ (fun _ _ hbound => h.later hbound) fun _ _ _ => trivial

section

variable (habove : scope.StartsAbove watch.base)
include habove

theorem keeps_write (hf : ∀ frame : Frame, frame.Evaluated (f frame))
    (hknown : ∀ later, bound ≤ later → watch.trusted → ∀ frame : Frame,
      frame.dynamics.Known later.counters →
      (f frame).dynamics.Known later.counters) : watch.Keeps bound (write scope f) := by
  refine .modify fun tree hholds hbound =>
    ⟨⟨?_, fun htrusted => ?_⟩, (tree.counters_write scope f).ge, .write habove hf⟩
  · exact (Holds.size hholds).trans_eq (tree.size_write scope f).symm
  · exact (Holds.known hholds htrusted).write scope (hknown _ hbound htrusted)

theorem keeps_writeValue (name : String) {value : DynamicValue}
    (h : watch.Knows bound value.value) :
    watch.Keeps bound (write scope (·.setDynamicValue name value)) :=
  keeps_write habove (fun _ => ⟨rfl, rfl, rfl, rfl⟩) fun _ hlater htrusted _ hframe =>
      Frame.known_setDynamicValue hframe name (h.later hlater htrusted)

theorem keeps_writeStructure (name : String) (h : watch.KnowsBasis bound basis) :
    watch.Keeps bound (write scope (·.setDynamicStructure name basis)) :=
  keeps_write habove (fun _ => ⟨rfl, rfl, rfl, rfl⟩) fun _ hlater htrusted _ hframe =>
      Frame.known_setDynamicStructure hframe name (h.later hlater htrusted)

theorem keeps_writeType (name : String) (type : DynamicType) :
    watch.Keeps bound (write scope (·.setDynamicType name type)) :=
  keeps_write habove (fun _ => ⟨rfl, rfl, rfl, rfl⟩) fun _ _ _ _ hframe => hframe.congr rfl rfl

end

/-! ## Primitive functions -/

theorem givesValue_allocate (h : watch.Knows bound value) :
    watch.GivesValue bound (allocate value) := by
  refine .modifyGet fun tree hholds hbound => ?_
  have hsize := Holds.size hholds
  have hle : tree.counters ≤ (tree.allocate value).2.counters :=
    ⟨by simp [ScopeTree.counters, ScopeTree.allocate], le_rfl⟩
  refine ⟨⟨hsize, fun htrusted => ?_⟩, ⟨hle, .of_frames_eq rfl rfl⟩, fun _ => ?_⟩
  · have hknown := Holds.known hholds htrusted
    refine ⟨fun number => (hknown.frames number).later hle, fun other hother => ?_, hknown.basic⟩
    rcases Array.mem_push.mp hother with hother | rfl
    · exact (hknown.memory other hother).later hle
    · exact (h.later hbound htrusted).later hle
  · exact Value.known_reference.mpr (by
      simp [invariant, Stage.counters, ScopeTree.counters, ScopeTree.allocate])

theorem givesValue_assign (hparts : argument.asTuple? = some [.reference address, value])
    (h : watch.Knows bound argument) :
    watch.GivesValue bound (Primitive.assign.apply argument) := by
  unfold Primitive.apply
  simp only [hparts]
  refine .get_bind fun tree hholds hbound => ?_
  by_cases hcell : address < tree.memory.size
  · have hbase := Holds.size hholds
    have hsize : ({ tree with memory := tree.memory.set! address value } :
        ScopeTree).counters = tree.counters := by
      simp [counters]
    simp only [store?, hcell, if_true]
    refine ⟨⟨hbase, fun htrusted => ?_⟩, ⟨hsize.ge, .of_frames_eq rfl rfl⟩, fun _ => by simp⟩
    have hknown := Holds.known hholds htrusted
    have hvalue := (h.later hbound htrusted).asTuple? hparts value (by simp)
    refine ⟨fun number => hsize ▸ hknown.frames number, fun other hother => ?_, hknown.basic⟩
    rw [hsize]
    rcases Array.mem_or_eq_of_mem_setIfInBounds hother with hother | rfl
    · exact hknown.memory other hother
    · exact hvalue
  · simp only [store?, hcell, if_false]
    refine ⟨hholds, le_rfl, fun htrusted => ?_⟩
    have hreference := (h.later hbound htrusted).asTuple? hparts (.reference address) (by simp)
    exact absurd (Value.known_reference.mp hreference) hcell

theorem givesValue_dereference (h : watch.Knows bound (.reference address)) : watch.GivesValue bound
      (Primitive.dereference.apply (.reference address)) := by
  refine .get_bind fun tree hholds hbound => ?_
  have hload : watch.trusted → ∃ value, tree.load? address = some value ∧
      value.Known tree.counters := fun htrusted =>
    (Holds.known hholds htrusted).load? (Value.known_reference.mp (h.later hbound htrusted))
  cases hfound : tree.load? address with
  | none =>
    refine ⟨hholds, le_rfl, fun htrusted => ?_⟩
    obtain ⟨value, hvalue, -⟩ := hload htrusted
    cases hfound.symm.trans hvalue
  | some value =>
    refine ⟨hholds, le_rfl, fun htrusted => ?_⟩
    obtain ⟨other, hother, hknown⟩ := hload htrusted
    cases hfound.symm.trans hother
    exact hknown

theorem givesValue_apply (primitive : Primitive) (h : watch.Knows bound argument) :
    watch.GivesValue bound (primitive.apply argument) := by
  have hdoes := primitive.does_apply argument
  generalize primitive.apply argument = action at hdoes
  cases hdoes with
  | gives hvalue => exact givesValue_pure fun _ => hvalue _
  | raises exn => exact ensures_raiseBasic exn
  | refuses => exact ensures_fault (by simp)
  | prints =>
    refine .bind (.modify fun tree hholds _ => ?_) fun _ _ _ _ => givesValue_pure fun _ => by simp
    have hsize := Holds.size hholds
    refine ⟨⟨hsize, fun htrusted => ?_⟩, le_rfl, .of_frames_eq rfl rfl⟩
    have hknown := Holds.known hholds htrusted
    exact ⟨hknown.frames, hknown.memory, hknown.basic⟩
  | loads hargument =>
    subst hargument
    exact givesValue_dereference h
  | stores hparts => exact givesValue_assign hparts h

/-! ## Declarations that evaluate nothing -/

variable (scope)

theorem declares_types (bindings : List TypeBind) :
    watch.Declares bound scope (declareTypes scope bindings) := by
  refine declares_nested_bind scope fun _ _ result hresult => ?_
  refine .returns (.forIn fun binding _ _ _ => ?_)
  exact .discard (keeps_writeType hresult.above _ _)

theorem declares_datatypes (bindings : List DatBind) :
    watch.Declares bound scope (declareDatatypes scope bindings) := by
  refine declares_nested_bind scope fun _ _ result hresult => ?_
  refine .returns (.forIn fun binding _ _ _ => ?_)
  refine (keeps_writeType hresult.above _ _).bind fun _ _ _ _ => ?_
  refine .discard (.forIn fun constructor _ _ _ => ?_)
  refine .discard (keeps_writeValue hresult.above _ fun _ => ?_)
  unfold constructorValue
  split
  · simp
  · simp

theorem declares_replicate (name : String) (target : LongName) (span : Span) :
    watch.Declares bound scope (replicateDatatype scope name target span) := by
  refine ensures_look_bind fun tree _ hbound => ?_
  split
  · exact ensures_fault (by simp)
  · refine Declares.after (declares_nested_bind scope fun _ _ result hresult => ?_) hbound
    refine .bind (P := fun _ _ => True) (.forIn fun constructor _ _ _ => ?_)
      fun _ _ _ _ => .returns (keeps_writeType hresult.above _ _)
    refine ensures_look_bind fun tree hholds _ => ?_
    split
    · rename_i hfound
      exact .discard (keeps_writeValue hresult.above _ fun htrusted =>
        (hholds.known htrusted).dynamicValue? hfound)
    · exact .discard (P := fun _ _ => True) (ensures_fault (by simp))

theorem ensures_newExceptionId :
    watch.Ensures bound (fun later id => id < later.counters.exceptions)
      (modifyGet fun tree => tree.newExceptionId) := by
  refine .modifyGet fun tree hholds _ => ?_
  have hsize := Holds.size hholds
  have hle : tree.counters ≤ tree.newExceptionId.2.counters := ⟨le_rfl, Nat.le_succ _⟩
  refine ⟨⟨hsize, fun htrusted => ?_⟩, ⟨hle, .of_frames_eq rfl rfl⟩, Nat.lt_succ_self _⟩
  have hknown := Holds.known hholds htrusted
  exact ⟨fun number => (hknown.frames number).later hle,
    fun value hvalue => (hknown.memory value hvalue).later hle,
    fun exn => (hknown.basic exn).trans (Nat.lt_succ_self _)⟩

theorem declares_exceptions (bindings : List ExnBind) :
    watch.Declares bound scope (declareExceptions scope bindings) := by
  refine declares_nested_bind scope fun _ _ result hresult => ?_
  refine .returns (.forIn fun binding _ _ _ => ?_)
  rcases binding with ⟨name, argument, span⟩ | ⟨name, target, span⟩
  · refine ensures_newExceptionId.bind fun _ _ id hid => ?_
    refine .discard (keeps_writeValue hresult.above _ fun _ => ?_)
    split
    · simpa using hid
    · simpa using hid
  · refine ensures_look_bind fun tree hholds _ => ?_
    split
    · rename_i hfound
      exact .discard (keeps_writeValue hresult.above _ fun htrusted =>
        (hholds.known htrusted).dynamicValue? hfound)
    · exact .discard (P := fun _ _ => True) (ensures_fault (by simp))

theorem declares_opened (span : Span) (names : List LongName) :
    watch.Declares bound scope (openStructures scope span names) := by
  refine declares_nested_bind scope fun _ _ result hresult => ?_
  refine .returns (.forIn fun long _ _ _ => ?_)
  refine ensures_look_bind fun tree hholds _ => ?_
  split
  · rename_i hfound
    refine .discard (keeps_write hresult.above
      (Frame.evaluated_installDynamics _) fun _ hlater htrusted _ hframe => ?_)
    have hbasis := (hholds.known htrusted).dynamicStructure? hfound
    exact Frame.known_installDynamics hframe (hbasis.later hlater.1)
  · exact .discard (P := fun _ _ => True) (ensures_fault (by simp))

theorem keeps_fixity (fixity : Fixity) (names : List String) :
    watch.Keeps bound (declareFixity scope fixity names) := by
  intro tree hholds _
  rw [declareFixity_eq]
  exact ensures_push (P := fun _ _ => True) (fun tree =>
      { level := tree.level scope + 1
        fixity := names.foldl (fun table name => Table.insert table name fixity) [] })
    (fun _ _ _ _ => known_empty) (fun _ _ _ => trivial) tree hholds
    le_rfl

theorem ensures_ofSignature {β : Type} {Q : watch.Stage → β → Prop} (signature : SigExp)
    {next : Interface → Eval β}
    (h : ∀ later, bound ≤ later → ∀ interface, watch.Ensures later Q (next interface)) :
    watch.Ensures bound Q (do
      let interface ← orFault (Interface.ofSignature (← get) scope signature)
      next interface) := by
  refine .get_bind fun tree hholds hbound => ?_
  have hsafe := Interface.safe_ofSignature tree scope signature
  exact (ensures_orFault fun _ => hsafe).bind
    (fun later hlater interface _ => h later (hbound.trans hlater) interface)
    tree hholds le_rfl

theorem declares_signatures (bindings : List SigBind) :
    watch.Declares bound scope (declareSignatures scope bindings) := by
  refine declares_nested_bind scope fun _ _ result hresult => ?_
  refine .returns (.forIn fun binding _ _ _ => ?_)
  refine ensures_ofSignature scope _ fun _ _ interface => ?_
  exact .discard (keeps_write hresult.above (fun _ => ⟨rfl, rfl, rfl, rfl⟩)
    fun _ _ _ _ hframe => hframe.congr rfl rfl)

theorem declares_functors (bindings : List (FunctorBind StrExp)) :
    watch.Declares bound scope (declareFunctors scope bindings) := by
  refine declares_nested_bind scope fun _ _ result hresult => ?_
  refine .returns (.forIn fun binding _ _ _ => ?_)
  refine ensures_ofSignature scope _ fun _ _ parameter => ?_
  exact .discard (keeps_write hresult.above (fun _ => ⟨rfl, rfl, rfl, rfl⟩)
    fun _ _ _ _ hframe => hframe.congr rfl rfl)

theorem keeps_bindFunctions {result : Scope} (habove : result.StartsAbove watch.base)
    (functions : List (String × Match Expr)) :
    watch.Keeps bound (bindFunctions result functions) := by
  induction functions generalizing bound with
  | nil => exact .pure fun _ _ => trivial
  | cons entry functions ih =>
    exact (keeps_writeValue habove _ fun _ => by simp).bind fun _ _ _ _ => ih

theorem keeps_recursiveFunctions (bindings : List (ValBind Expr)) :
    watch.Keeps bound (recursiveFunctions bindings) := by
  induction bindings with
  | nil => exact .pure fun _ _ => trivial
  | cons binding bindings ih =>
    unfold recursiveFunctions
    split
    · exact ensures_fault (by simp)
    · exact ensures_fault (by simp)
    · exact ih.bind_pure fun _ _ _ _ => trivial

theorem keeps_clausalFunctions (bindings : List (FunBind Expr)) :
    watch.Keeps bound (clausalFunctions bindings) := by
  induction bindings with
  | nil => exact .pure fun _ _ => trivial
  | cons binding bindings ih =>
    unfold clausalFunctions
    split
    · exact ensures_fault (by simp)
    · exact ih.bind_pure fun _ _ _ _ => trivial

/-! ## Parts of phrases -/

theorem ensures_truth {Q : watch.Stage → β → Prop} {action : Eval Value} {next : Bool → Eval β}
    (haction : watch.GivesValue bound action)
    (hnext : ∀ later, bound ≤ later → ∀ answer, watch.Ensures later Q (next answer)) :
    watch.Ensures bound Q (do next (← truth (← action))) := by
  refine haction.bind fun first hfirst value _ => ?_
  refine .bind (P := fun _ _ => True) ?_ fun later hlater answer _ =>
    hnext later (hfirst.trans hlater) answer
  unfold truth
  split
  · exact .pure fun _ _ => trivial
  · exact ensures_fault (by simp)

theorem ensures_fields {f : β → Eval Value}
    (hf : ∀ later, bound ≤ later → ∀ part, watch.GivesValue later (f part))
    (parts : List (String × β)) {values : Table Value}
    (hvalues : watch.Knows bound (.record values)) :
    watch.Ensures bound (fun later values => watch.Knows later (.record values))
      (fields f parts values) := by
  induction parts generalizing bound values with
  | nil => exact .pure fun _ hlater => hvalues.later hlater
  | cons entry parts ih =>
    refine (hf bound le_rfl _).bind fun first hfirst value hvalue => ?_
    refine ih (fun later hlater part => hf later (hfirst.trans hlater) part) fun htrusted => ?_
    have hearlier := Value.known_record.mp (hvalues.later hfirst htrusted)
    exact Value.known_record.mpr (Table.forall_mem_insert hearlier (hvalue htrusted))

theorem known_constantValue (counters : Counters) (constant : Constant) :
    (constantValue constant).Known counters := by
  cases constant with
  | int | real | string | char => simp [constantValue]

end Watch

/-! ## Whole phrases -/

/-- The evaluators that may go this many steps deep keep to what evaluation is
watched for. -/
structure Watched (watch : Watch) (steps : Nat) : Prop where
  expr : ∀ {bound} scope expr, watch.GivesValue bound (evalExpr steps scope expr)
  rules : ∀ {bound} scope rules {value otherwise : Value},
    watch.Knows bound value → watch.Knows bound otherwise →
      watch.GivesValue bound (evalMatch steps scope rules value otherwise)
  application : ∀ {bound} {function argument : Value},
    watch.Knows bound function → watch.Knows bound argument →
      watch.GivesValue bound (applyValue steps function argument)
  bindings : ∀ {bound} scope {result} bindings, result.StartsAbove watch.base →
      watch.Keeps bound (evalBindings steps scope result bindings)
  decl : ∀ {bound} scope declaration, watch.Keeps bound (evalDecl steps scope declaration)
  str : ∀ {bound} scope body, watch.GivesBasis bound (evalStr steps scope body)

namespace Watched

open Watch

variable {watch : Watch} {bound : watch.Stage} {steps : Nat} (h : Watched watch steps)
  (scope : Scope)
include h

theorem givesValue_expr (expr : Expr) :
    watch.GivesValue bound (evalExpr (steps + 1) scope expr) := by
  unfold evalExpr
  cases expr with
  | const value span => exact givesValue_pure fun _ => known_constantValue _ value
  | name long span =>
    refine ensures_look_bind fun tree hholds _ => ?_
    split
    · rename_i hfound
      exact givesValue_pure fun htrusted => (hholds.known htrusted).dynamicValue? hfound
    · exact ensures_fault (by simp)
  | record parts span =>
    refine (ensures_fields (fun _ _ part => h.expr scope part) parts
      fun _ => by simp).bind fun _ _ values hvalues => ?_
    exact givesValue_pure hvalues
  | tuple elements span =>
    refine (mapM lasting_value
      fun expr _ _ _ => h.expr scope expr).bind fun _ _ values hvalues => ?_
    exact givesValue_pure fun htrusted =>
      Value.known_tuple fun value hvalue => hvalues value hvalue htrusted
  | list elements span =>
    refine (mapM lasting_value
      fun expr _ _ _ => h.expr scope expr).bind fun _ _ values hvalues => ?_
    exact givesValue_pure fun htrusted =>
      Value.known_list fun value hvalue => hvalues value hvalue htrusted
  | selector | fn => exact givesValue_pure fun _ => by simp
  | app function argument span =>
    refine (h.expr scope function).bind fun _ _ function hfunction => ?_
    refine (h.expr scope argument).bind fun _ hlater argument hargument => ?_
    exact h.application (hfunction.later hlater) hargument
  | typed body annotation span => exact h.expr scope body
  | andAlso left right span =>
    refine ensures_truth (h.expr scope left) fun _ _ answer => ?_
    exact .ite (fun _ => h.expr scope right) fun _ => givesValue_pure fun _ => by simp
  | orElse left right span =>
    refine ensures_truth (h.expr scope left) fun _ _ answer => ?_
    exact .ite (fun _ => givesValue_pure fun _ => by simp) fun _ => h.expr scope right
  | cond test yes no span =>
    refine ensures_truth (h.expr scope test) fun _ _ answer => ?_
    exact .ite (fun _ => h.expr scope yes) fun _ => h.expr scope no
  | caseOf scrutinee rules span =>
    refine (h.expr scope scrutinee).bind fun _ _ value hvalue => ?_
    exact .of_start fun tree hholds hbound =>
      h.rules scope rules (hvalue.later hbound)
        fun htrusted => (Holds.known hholds htrusted).exn .match
  | letIn declaration body span =>
    exact (h.decl scope declaration).bind fun _ _ inside _ => h.expr inside body
  | raise exn span =>
    refine (h.expr scope exn).bind fun _ _ value hvalue => ?_
    split
    · exact ensures_raise hvalue
    · exact ensures_fault (by simp)
  | handle body rules span =>
    exact ensures_catching (h.expr scope body) fun _ _ exn hexn => h.rules scope rules hexn hexn
  | seq expressions span =>
    exact .foldlM lasting_value (fun _ => Value.known_unit) fun expr _ _ _ _ _ => h.expr scope expr
  | loop test body span =>
    refine ensures_truth (h.expr scope test) fun _ _ answer => ?_
    refine .ite (fun _ => ?_) fun _ => givesValue_pure fun _ => by simp
    exact (h.expr scope body).bind fun _ _ _ _ => h.expr scope _

theorem givesValue_rules (rules : Match Expr) {value otherwise : Value}
    (hvalue : watch.Knows bound value) (hotherwise : watch.Knows bound otherwise) :
    watch.GivesValue bound (evalMatch (steps + 1) scope rules value otherwise) := by
  unfold evalMatch
  refine ensures_look_bind fun tree hholds hbound => ?_
  refine (ensures_orFault fun htrusted =>
    safe_firstRule? ((hholds.known htrusted).matchEnv scope)
      (hvalue.later hbound htrusted) rules.rules).bind
    fun later hlater chosen hchosen => ?_
  cases chosen with
  | none => exact ensures_raise (hotherwise.later (hbound.trans hlater))
  | some chosen =>
    obtain ⟨values, body⟩ := chosen
    refine bind (keeps_enter scope fun entry hentry htrusted =>
      ?_) fun _ _ inner _ => h.expr inner body
    have hvalues : values.Known tree.counters := hchosen htrusted _ rfl
    exact (hvalues entry hentry).later hlater.1

theorem givesValue_application {function : Value} (hfunction : watch.Knows bound function)
    (hargument : watch.Knows bound argument) :
    watch.GivesValue bound (applyValue (steps + 1) function argument) := by
  unfold applyValue
  cases function with
  | closure rules scope =>
    exact .of_start fun tree hholds hbound =>
      h.rules scope rules (hargument.later hbound)
        fun htrusted => (Holds.known hholds htrusted).exn .match
  | primitive primitive => exact givesValue_apply primitive hargument
  | constructor name => exact givesValue_pure fun htrusted => by simpa using hargument htrusted
  | exnConstructor name id =>
    refine givesValue_pure fun htrusted => Value.known_exn.mpr
      ⟨?_, by simpa using hargument htrusted⟩
    exact Value.known_exnConstructor.mp (hfunction htrusted)
  | makeRef => exact givesValue_allocate hargument
  | selector label =>
    cases argument with
    | record values =>
      dsimp only
      split
      · rename_i hfound
        exact givesValue_pure fun htrusted => (hargument htrusted).get? hfound
      · exact ensures_fault (by simp)
    | _ => exact ensures_fault (by simp)
  | _ => exact ensures_fault (by simp)

theorem keeps_bindings {result : Scope}
    (bindings : List (ValBind Expr)) (habove : result.StartsAbove watch.base) :
    watch.Keeps bound (evalBindings (steps + 1) scope result bindings) := by
  unfold evalBindings
  refine .forM fun binding _ _ _ => ?_
  refine (h.expr scope binding.body).bind fun _ _ value hvalue => ?_
  refine ensures_look_bind fun tree hholds hbound => ?_
  refine (ensures_orFault fun htrusted =>
    Pat.safe_matchValue ((hholds.known htrusted).matchEnv scope)
      binding.pattern (hvalue.later hbound htrusted)).bind
    fun _ hlater outcome houtcome => ?_
  refine .ite (fun _ => ?_) fun _ => ensures_raiseBasic _
  refine .forM fun entry hentry _ hlast => ?_
  exact keeps_writeValue habove _ fun htrusted =>
    (houtcome htrusted entry hentry).later (hlater.trans hlast).1

theorem declares_decl {declaration : Decl} (hsimple : declaration.IsSimple) :
    watch.Declares bound scope (evalDecl (steps + 1) scope declaration) := by
  unfold evalDecl
  cases declaration with
  | val recursive parameters bindings span =>
    cases recursive with
    | false =>
      refine declares_nested_bind scope fun _ _ result hresult => ?_
      exact .returns (h.bindings scope bindings hresult.above)
    | true =>
      refine declares_nested_bind scope fun _ _ result hresult => ?_
      refine (keeps_recursiveFunctions bindings).bind fun _ _ functions _ => ?_
      exact .returns (keeps_bindFunctions hresult.above functions)
  | functions parameters bindings span =>
    refine declares_nested_bind scope fun _ _ result hresult => ?_
    refine (keeps_clausalFunctions bindings).bind fun _ _ functions _ => ?_
    exact .returns (keeps_bindFunctions hresult.above functions)
  | types bindings span => exact declares_types scope bindings
  | datatypes bindings span => exact declares_datatypes scope bindings
  | replicate name target span => exact declares_replicate scope name target span
  | exceptions bindings span => exact declares_exceptions scope bindings
  | opened names span => exact declares_opened scope span names
  | structures bindings span =>
    have hlasting : Invariant.Lasting fun later (entry : String × _) =>
        watch.KnowsBasis later entry.2 :=
      fun _ _ _ hle hentry => hentry.later hle
    refine (mapM hlasting fun binding _ _ _ => ?_).bind
      fun _ hbound bases hbases => ?_
    · exact (h.str scope binding.body).bind_pure fun _ _ basis hbasis => hbasis
    · refine Declares.after (declares_nested_bind scope fun _ hfirst result hresult => ?_) hbound
      refine .returns (.forM fun entry hentry _ hsecond => ?_)
      exact keeps_writeStructure hresult.above _
        ((hbases entry hentry).later (hfirst.trans hsecond))
  | signatures bindings span => exact declares_signatures scope bindings
  | functors bindings span => exact declares_functors scope bindings
  | localIn | seq | fixity => exact hsimple.elim

theorem keeps_decl (declaration : Decl) :
    watch.Keeps bound (evalDecl (steps + 1) scope declaration) := by
  have hkeeps : declaration.IsSimple → watch.Keeps bound (evalDecl (steps + 1) scope declaration) :=
    fun hsimple => (h.declares_decl scope hsimple).keeps
  cases declaration with
  | localIn hidden body span =>
    refine (h.decl scope hidden).bind fun _ _ inside _ => ?_
    refine (declares_nested inside).bind fun _ _ mark _ => ?_
    refine (h.decl mark body).bind fun _ _ after _ => ?_
    refine ensures_look_bind fun tree hholds _ => ?_
    exact keeps_withChanges scope fun htrusted => (hholds.known htrusted).changesSince _ _
  | seq declarations span =>
    exact .foldlM (fun _ _ _ _ _ => trivial) trivial
      fun declaration _ _ _ inside _ => h.decl inside declaration
  | fixity fixity names span =>
    exact keeps_fixity scope fixity names
  | _ => exact hkeeps trivial

theorem givesBasis_str (body : StrExp) :
    watch.GivesBasis bound (evalStr (steps + 1) scope body) := by
  unfold evalStr
  cases body with
  | body declaration span =>
    refine (declares_nested scope).bind fun _ _ mark _ => ?_
    refine (h.decl mark declaration).bind fun _ _ inside _ => ?_
    exact .get_bind fun tree hholds _ => ⟨hholds, le_rfl, fun htrusted =>
      (Holds.known hholds htrusted).changesSince _ _⟩
  | name long span =>
    refine ensures_look_bind fun tree hholds _ => ?_
    split
    · rename_i hfound
      exact .pure fun _ hlater htrusted =>
        ((hholds.known htrusted).dynamicStructure? hfound).later hlater.1
    · exact ensures_fault (by simp)
  | ascribed hides body signature span =>
    refine (h.str scope body).bind fun _ _ basis hbasis => ?_
    refine ensures_ofSignature scope _ fun _ hlater interface => ?_
    exact .pure fun _ hlast => (hbasis.later (hlater.trans hlast)).restrict interface
  | apply name argument span =>
    refine ensures_look_bind fun tree hholds _ => ?_
    split
    · exact ensures_fault (by simp)
    · rename_i functor hfound
      refine (h.str scope argument).bind fun _ _ basis hbasis => ?_
      refine (declares_nested functor.scope).bind fun _ hlater inner hinner => ?_
      refine (keeps_writeStructure hinner.above _
        ((hbasis.later hlater).restrict _)).bind fun _ _ _ _ => ?_
      exact h.str inner functor.body
  | letIn declaration body span =>
    exact (h.decl scope declaration).bind fun _ _ inside _ => h.str inside body

end Watched

theorem watched (watch : Watch) (steps : Nat) : Watched watch steps := by
  induction steps with
  | zero =>
    constructor
    · intro bound scope expr
      exact .throw fun _ _ _ => trivial
    · intro bound scope rules value otherwise _ _
      exact .throw fun _ _ _ => trivial
    · intro bound function argument _ _
      exact .throw fun _ _ _ => trivial
    · intro bound scope result bindings _
      exact .throw fun _ _ _ => trivial
    · intro bound scope declaration
      exact .throw fun _ _ _ => trivial
    · intro bound scope body
      exact .throw fun _ _ _ => trivial
  | succ steps ih =>
    exact ⟨ih.givesValue_expr, ih.givesValue_rules,
      ih.givesValue_application, ih.keeps_bindings, ih.keeps_decl,
      ih.givesBasis_str⟩

open Watch in
theorem Watch.keeps_evalProgram {watch : Watch} {bound : watch.Stage} (steps : Nat) (scope : Scope)
    (program : Program) : watch.Keeps bound (evalProgram steps scope program) := by
  refine .foldlM (fun _ _ _ _ _ => trivial) trivial fun declaration _ _ _ scope _ => ?_
  unfold evalTopLevel
  refine (declares_nested scope).bind fun _ _ group _ => ?_
  refine ((watched watch steps).decl group declaration).bind fun _ _ inner _ => ?_
  refine ensures_look_bind fun tree hholds _ => ?_
  exact keeps_withChanges scope fun htrusted => (hholds.known htrusted).changesSince _ _

/-! ## Trees that nothing is known of -/

def Watch.any (base : Nat) : Watch := ⟨base, False⟩

section Any

variable {base : Nat} {tree : ScopeTree}

theorem Watch.holds_any (h : base ≤ tree.frames.size) : (any base).Holds tree := ⟨h, False.elim⟩

theorem grows_of_ensures {α : Type} {action : Eval α}
    {P : (Watch.any base).Stage → (Watch.any base).Stage → α → Prop}
    (h : ∀ {bound}, (Watch.any base).Ensures bound (P bound) action) :
    Advances (ScopeTree.Grows base) action := by
  intro tree hbase
  have hafter := h tree (Watch.holds_any hbase) le_rfl
  unfold leaves
  cases hresult : action tree with
  | ok | error =>
    rw [hresult] at hafter
    exact hafter.2.1.2

theorem opened_of_declares {result : Scope} {after : ScopeTree} (hbase : base ≤ tree.frames.size)
    (h : (Watch.any base).Declares ⟨tree⟩ scope action) (hok : action tree = .ok result after) :
    (Watch.any base).Opened scope ⟨tree⟩ ⟨after⟩ result := by
  have hafter := h tree (Watch.holds_any hbase) le_rfl
  rw [hok] at hafter
  exact hafter.2.2

theorem grows_evalDecl (steps : Nat) (scope : Scope) (declaration : Decl) :
    Advances (ScopeTree.Grows base) (evalDecl steps scope declaration) :=
  grows_of_ensures ((watched _ steps).decl scope declaration)

theorem grows_evalProgram (steps : Nat) (scope : Scope) (program : Program) :
    Advances (ScopeTree.Grows base) (evalProgram steps scope program) :=
  grows_of_ensures (Watch.keeps_evalProgram steps scope program)

end Any

end Eval

end Sml
