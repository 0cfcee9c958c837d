import Sml.Proofs.ElaborationGrowth
import Sml.Proofs.Invariant
import Sml.Proofs.MergeNames
import Sml.Proofs.ScopeGrowth
import Sml.Proofs.Supply
import Sml.Proofs.WrittenNames

/-!
# What elaboration keeps to

Elaboration that starts in a scope sees the frames of that scope and those it
makes itself.  The type variables it finds there, in the store and in the
types it is working on are of some kind, which may grow with the number that
the supply has come to: names that the supply has given are of the kind, and
so are those that are written.  Elaboration then uses no other names.  What
the frames hold for evaluation is only copied, and frames that were there
before are not written to.
-/

namespace Sml

open Elab List Option ScopeTree StaticBasis Table Ty

/-! ## Changes of frames -/

/-- The change brings in no names of another kind and leaves alone what
evaluation reads, the level, the operators and what is assumed. -/
structure Frame.Adds (P : String → Prop) (f : Frame → Frame) : Prop where
  statics : ∀ frame, frame.statics.AllNames P → (f frame).statics.AllNames P
  dynamics : ∀ frame, (f frame).dynamics = frame.dynamics
  steady : ∀ frame, (f frame).level = frame.level ∧ (f frame).fixity = frame.fixity ∧
    (f frame).assumptions = frame.assumptions

variable {value : StaticValue} {basis : StaticBasis}
variable {info : TypeInfo} {functor : StaticFunctor} {frame : Frame} {α : Type} {left right : Ty}

namespace Frame

variable {P : String → Prop}

theorem adds_setStaticValue (name : String) (h : value.type.AllNames P) :
    Adds P (·.setStaticValue name value) where
  statics frame hframe := by
    rw [allNames_iff] at hframe ⊢
    exact ⟨hframe.1, forall_mem_insert
      (K := fun value : StaticValue => value.type.AllNames P) hframe.2.1 h, hframe.2.2⟩
  dynamics _ := rfl
  steady _ := ⟨rfl, rfl, rfl⟩

theorem adds_setStaticType (name : String) (h : info.type.AllNames P) :
    Adds P (·.setStaticType name info) where
  statics frame hframe := by
    rw [allNames_iff] at hframe ⊢
    exact ⟨forall_mem_insert
      (K := fun info : TypeInfo => info.type.AllNames P) hframe.1 h, hframe.2⟩
  dynamics _ := rfl
  steady _ := ⟨rfl, rfl, rfl⟩

theorem adds_setStaticStructure (name : String) (h : basis.AllNames P) :
    Adds P (·.setStaticStructure name basis) where
  statics frame hframe := by
    rw [allNames_iff] at hframe ⊢
    exact ⟨hframe.1, hframe.2.1, forall_mem_insert hframe.2.2.1 h, hframe.2.2.2⟩
  dynamics _ := rfl
  steady _ := ⟨rfl, rfl, rfl⟩

theorem adds_setStaticSignature (name : String) (h : basis.AllNames P) :
    Adds P (·.setStaticSignature name basis) where
  statics frame hframe := by
    rw [allNames_iff] at hframe ⊢
    exact ⟨hframe.1, hframe.2.1, hframe.2.2.1, forall_mem_insert hframe.2.2.2.1 h, hframe.2.2.2.2⟩
  dynamics _ := rfl
  steady _ := ⟨rfl, rfl, rfl⟩

theorem adds_setStaticFunctor (name : String) (hparameter : functor.parameter.AllNames P)
    (hbody : functor.body.AllNames P) : Adds P (·.setStaticFunctor name functor) where
  statics frame hframe := by
    rw [allNames_iff] at hframe ⊢
    exact ⟨hframe.1, hframe.2.1, hframe.2.2.1, hframe.2.2.2.1,
      forall_mem_insert hframe.2.2.2.2 (allNames_functor.mpr ⟨hparameter, hbody⟩)⟩
  dynamics _ := rfl
  steady _ := ⟨rfl, rfl, rfl⟩

theorem adds_installStatics (h : basis.AllNames P) : Adds P (·.installStatics basis) := by
  obtain ⟨htypes, hvalues, hrest⟩ := allNames_iff.mp h
  -- The values are put in one after the other.
  refine ⟨fun frame hframe => ?_, fun frame => ?_, installStatics_steady basis⟩
  · refine foldlRecOn (motive := fun frame : Frame => frame.statics.AllNames P) basis.values _ ?_
      fun frame hframe entry hentry =>
        (adds_setStaticValue entry.1 (hvalues entry hentry)).statics frame hframe
    exact hframe.override (allNames_iff.mpr ⟨htypes, by simp, hrest⟩)
  · exact foldlRecOn (motive := fun other : Frame => other.dynamics = frame.dynamics)
      basis.values _ rfl fun _ hother _ _ => hother

end Frame

/-! ## The kind of names -/

structure Hygiene where
  base : Nat
  start : Scope
  /-- The names that may be in use when the supply has come to a number. -/
  kind : Nat → String → Prop
  written : String → Prop
  dynamics : DynamicBasis → Prop
  kind_mono : ∀ {first second name}, first ≤ second → kind first name → kind second name
  closed : ∀ next, ClosedNames (kind next)
  given : ∀ next, kind (next + 1) (NameSupply.name next)
  kind_of_written : ∀ {next name}, written name → kind next name
  empty : dynamics {}
  orElse : ∀ {first second}, dynamics first → dynamics second →
    dynamics (first.orElse second.settled)

variable {name : String} {type : Ty} {path : List String}
variable {action : Elab α}

namespace Hygiene

structure Stage (hygiene : Hygiene) where
  state : ElabState

/-- The supply goes on, and only frames that elaboration has made are written
to. -/
instance (hygiene : Hygiene) : Preorder hygiene.Stage where
  le before after := before.state.supply.next ≤ after.state.supply.next ∧
    before.state.Elaborated hygiene.base after.state
  le_refl _ := ⟨le_rfl, .of_tree_eq rfl .refl⟩
  le_trans _ _ _ hfirst hsecond := ⟨hfirst.1.trans hsecond.1, hfirst.2.trans hsecond.2⟩

section Definitions

variable (hygiene : Hygiene)

def names (stage : hygiene.Stage) : String → Prop := hygiene.kind stage.state.supply.next

def Inside (number : Nat) : Prop := hygiene.base ≤ number ∨ number ∈ hygiene.start

def Covers (scope : Scope) : Prop := ∀ number ∈ scope, hygiene.Inside number

structure Holds (state : ElabState) : Prop where
  size : hygiene.base ≤ state.tree.frames.size
  statics : ∀ number, hygiene.Inside number →
    (state.tree.frame number).statics.AllNames (hygiene.names ⟨state⟩)
  dynamics : ∀ number, hygiene.dynamics (state.tree.frame number).dynamics
  store : state.store.AllNames (hygiene.names ⟨state⟩)
  monomorphic : ∀ type ∈ state.monomorphic, type.AllNames (hygiene.names ⟨state⟩)
  explicit : ∀ table ∈ state.explicit, ∀ entry ∈ table, hygiene.names ⟨state⟩ entry.2
  flexible : ∀ entry ∈ state.flexible, entry.1.AllNames (hygiene.names ⟨state⟩)

def invariant : Invariant ElabError ElabState hygiene.Stage where
  holds := hygiene.Holds
  measure := Stage.mk
  fails _ _ := True

/-- The scope with a frame that has been made since, which has no
operators. -/
structure Opened (scope : Scope) (before after : hygiene.Stage) (result : Scope) : Prop where
  covers : hygiene.Covers result
  above : result.StartsAbove hygiene.base
  frame : (∀ number ∈ scope.head?, number < before.state.tree.frames.size) →
    ∃ number, result = number :: scope ∧ before.state.tree.frames.size ≤ number ∧
      number < after.state.tree.frames.size ∧
      (after.state.tree.frame number).level = before.state.tree.level scope + 1 ∧
      (after.state.tree.frame number).fixity = []

variable (bound : hygiene.Stage)

abbrev Ensures {α : Type} (P : hygiene.Stage → α → Prop) (action : Elab α) :
    Prop :=
  hygiene.invariant.Ensures bound P action

abbrev Keeps {α : Type} (action : Elab α) : Prop := hygiene.invariant.Keeps bound action

/-! What actions give. -/

abbrev GivesScope (action : Elab Scope) : Prop :=
  hygiene.Ensures bound (fun _ scope => hygiene.Covers scope) action

abbrev Declares (scope : Scope) (action : Elab Scope) : Prop :=
  hygiene.Ensures bound (hygiene.Opened scope bound) action

abbrev GivesType (action : Elab Ty) : Prop := hygiene.Ensures bound
    (fun later type => type.AllNames (hygiene.names later)) action

abbrev GivesFields (action : Elab (List (String × Ty))) : Prop := hygiene.Ensures bound
    (fun later fields => ∀ field ∈ fields, field.2.AllNames (hygiene.names later)) action

abbrev GivesBasis (action : Elab StaticBasis) : Prop := hygiene.Ensures bound
    (fun later basis => basis.AllNames (hygiene.names later)) action

end Definitions

variable {hygiene : Hygiene} {bound : hygiene.Stage} {state : ElabState} {scope : Scope}

theorem mono {first second : hygiene.Stage} (hle : first ≤ second) (h : hygiene.names first name) :
    hygiene.names second name :=
  hygiene.kind_mono hle.1 h

theorem names_of_written {stage : hygiene.Stage} (h : hygiene.written name) :
    hygiene.names stage name :=
  hygiene.kind_of_written h

theorem stage_le {before after : ElabState} (hnext : before.supply.next ≤ after.supply.next)
    (htree : after.tree = before.tree) (hstore : before.store.Learns after.store) :
    (⟨before⟩ : hygiene.Stage) ≤ ⟨after⟩ :=
  ⟨hnext, .of_tree_eq htree hstore⟩

section Later

variable {later : hygiene.Stage} (hle : bound ≤ later)
include hle

theorem type_later (h : type.AllNames (hygiene.names bound)) :
    type.AllNames (hygiene.names later) :=
  h.imp fun _ => mono hle

theorem types_later {items : List α} {f : α → Ty}
    (h : ∀ item ∈ items, (f item).AllNames (hygiene.names bound)) :
    ∀ item ∈ items, (f item).AllNames (hygiene.names later) :=
  fun item hitem => type_later hle (h item hitem)

theorem basis_later (h : basis.AllNames (hygiene.names bound)) :
    basis.AllNames (hygiene.names later) :=
  h.imp fun _ => mono hle

theorem structures_later {structures : List (String × StaticBasis)}
    (h : ∀ entry ∈ structures, entry.2.AllNames (hygiene.names bound)) :
    ∀ entry ∈ structures, entry.2.AllNames (hygiene.names later) :=
  fun entry hentry => basis_later hle (h entry hentry)

end Later

section Lasting

variable (hygiene : Hygiene)

theorem lasting_type : Invariant.Lasting fun next type => Ty.AllNames (hygiene.names next) type :=
  fun _ _ _ hle h => type_later hle h

theorem lasting_field : Invariant.Lasting fun next (field : String × Ty) =>
      field.2.AllNames (hygiene.names next) :=
  fun _ _ _ hle h => type_later hle h

theorem lasting_fields : Invariant.Lasting fun next (fields : List (String × Ty)) =>
      ∀ field ∈ fields, field.2.AllNames (hygiene.names next) :=
  fun _ _ _ hle h => types_later hle h

theorem lasting_scope : Invariant.Lasting fun (_ : hygiene.Stage) scope =>
      hygiene.Covers scope :=
  fun _ _ _ _ h => h

theorem lasting_entries : Invariant.Lasting fun next (table : Table String) =>
      ∀ entry ∈ table, hygiene.names next entry.2 :=
  fun _ _ _ hle h entry hentry => mono hle (h entry hentry)

end Lasting

/-! ## Looking up -/

namespace Holds

variable (h : hygiene.Holds state) (hscope : hygiene.Covers scope)
include h hscope

theorem staticStructure? (hfound : state.tree.staticStructure? scope path = some basis) :
    basis.AllNames (hygiene.names ⟨state⟩) := by
  cases path with
  | nil => cases hfound
  | cons first rest =>
    obtain ⟨outer, houter, hrest⟩ := bind_eq_some_iff.mp hfound
    obtain ⟨number, hnumber, hentry⟩ := exists_of_find? houter
    have hframe := h.statics number (hscope number hnumber)
    have hnames := (allNames_iff.mp hframe).2.2.1 _ (mem_of_get? hentry)
    cases rest with
    | nil =>
      cases hrest
      exact hnames
    | cons second rest => exact allNames_findIn (allNames_iff.mp hnames).2.2.1 hrest

theorem staticValue? (hfound : state.tree.staticValue? scope path name = some value) :
    value.type.AllNames (hygiene.names ⟨state⟩) := by
  cases path with
  | nil =>
    rw [staticValue?] at hfound
    obtain ⟨number, hnumber, hentry⟩ := exists_of_find? hfound
    have hframe := h.statics number (hscope number hnumber)
    exact (allNames_iff.mp hframe).2.1 _ (mem_of_get? hentry)
  | cons first rest =>
    obtain ⟨basis, hbasis, hentry⟩ := bind_eq_some_iff.mp hfound
    have hnames := h.staticStructure? hscope hbasis
    exact (allNames_iff.mp hnames).2.1 _ (mem_of_get? hentry)

theorem staticType? (hfound : state.tree.staticType? scope path name = some info) :
    info.type.AllNames (hygiene.names ⟨state⟩) := by
  cases path with
  | nil =>
    rw [staticType?] at hfound
    obtain ⟨number, hnumber, hentry⟩ := exists_of_find? hfound
    have hframe := h.statics number (hscope number hnumber)
    exact (allNames_iff.mp hframe).1 _ (mem_of_get? hentry)
  | cons first rest =>
    obtain ⟨basis, hbasis, hentry⟩ := bind_eq_some_iff.mp hfound
    have hnames := h.staticStructure? hscope hbasis
    exact (allNames_iff.mp hnames).1 _ (mem_of_get? hentry)

theorem typeEnv : (state.tree.typeEnv scope).AllNames (hygiene.names ⟨state⟩) :=
  fun _ _ _ hfound => h.staticType? hscope hfound

theorem staticSignature? (hfound : state.tree.staticSignature? scope name = some basis) :
    basis.AllNames (hygiene.names ⟨state⟩) := by
  obtain ⟨number, hnumber, hentry⟩ := exists_of_find? hfound
  have hframe := h.statics number (hscope number hnumber)
  exact (allNames_iff.mp hframe).2.2.2.1 _ (mem_of_get? hentry)

theorem staticFunctor? (hfound : state.tree.staticFunctor? scope name = some functor) :
    functor.parameter.AllNames (hygiene.names ⟨state⟩) ∧
      functor.body.AllNames (hygiene.names ⟨state⟩) := by
  obtain ⟨number, hnumber, hentry⟩ := exists_of_find? hfound
  have hframe := h.statics number (hscope number hnumber)
  exact allNames_functor.mp ((allNames_iff.mp hframe).2.2.2.2 _ (mem_of_get? hentry))

theorem changesSince (limit : Nat) : (state.tree.changesSince scope limit).statics.AllNames
        (hygiene.names ⟨state⟩) ∧
      hygiene.dynamics (state.tree.changesSince scope limit).dynamics := by
  refine changesSince_of (K := fun changes =>
    changes.statics.AllNames (hygiene.names ⟨state⟩) ∧ hygiene.dynamics changes.dynamics)
    ⟨allNames_empty, hygiene.empty⟩ ?_ limit
  intro changes hchanges number hnumber
  exact ⟨hchanges.1.orElse (h.statics number (hscope number hnumber)).settled,
    hygiene.orElse hchanges.2 (h.dynamics number)⟩

end Holds

/-! ## Frames -/

theorem Holds.push (h : hygiene.Holds state) (scope : Scope)
    (hstatics : frame.statics.AllNames (hygiene.names ⟨state⟩))
    (hdynamics : hygiene.dynamics frame.dynamics) :
    hygiene.Holds { state with tree := (state.tree.push scope frame).2 } :=
  { h with
    size := h.size.trans (by simp [ScopeTree.push])
    statics := fun number hinside => of_frame_push
      (Q := fun frame => frame.statics.AllNames _) (h.statics number hinside)
      scope hstatics
    dynamics := fun number => of_frame_push
      (Q := fun frame => hygiene.dynamics frame.dynamics) (h.dynamics number)
      scope hdynamics }

theorem Holds.covers_push (h : hygiene.Holds state) (hscope : hygiene.Covers scope) :
    hygiene.Covers (state.tree.frames.size :: scope) := by
  intro number hnumber
  rcases mem_cons.mp hnumber with rfl | hnumber
  · exact .inl h.size
  · exact hscope number hnumber

theorem Holds.stage_le_push (h : hygiene.Holds state) (scope : Scope)
    (hframe : frame.assumptions = []) :
    (⟨state⟩ : hygiene.Stage) ≤
      ⟨{ state with tree := (state.tree.push scope frame).2 }⟩ :=
  ⟨le_rfl, .push h.size scope hframe, .refl⟩

namespace Opened

variable {first middle last : hygiene.Stage} {result : Scope}

theorem later (h : hygiene.Opened scope first middle result)
    (hle : middle ≤ last) : hygiene.Opened scope first last result := by
  refine { h with frame := fun hscope => ?_ }
  obtain ⟨number, hresult, hlower, hupper, hlevel, hfixity⟩ := h.frame hscope
  have hsteady := hle.2.steady
  exact ⟨number, hresult, hlower, hupper.trans_le hsteady.size_le,
    (hsteady.level number hupper).trans hlevel,
    (hsteady.fixity number hupper).trans hfixity⟩

theorem sooner (h : hygiene.Opened scope middle last result)
    (hle : first ≤ middle) : hygiene.Opened scope first last result := by
  refine { h with frame := fun hscope => ?_ }
  have hsteady := hle.2.steady
  obtain ⟨number, hresult, hlower, hupper, hlevel, hfixity⟩ := h.frame
    fun number hnumber => (hscope number hnumber).trans_le hsteady.size_le
  exact ⟨number, hresult, hsteady.size_le.trans hlower, hupper,
    hlevel.trans (by rw [hsteady.level_eq hscope]), hfixity⟩

end Opened

theorem Declares.givesScope {action : Elab Scope} (h : hygiene.Declares bound scope action) :
    hygiene.GivesScope bound action :=
  h.mono fun _ _ _ hresult => hresult.covers

theorem Declares.after {later : hygiene.Stage} {action : Elab Scope}
    (h : hygiene.Declares later scope action) (hle : bound ≤ later) :
    hygiene.Ensures later (hygiene.Opened scope bound) action :=
  h.mono fun _ _ _ hresult => hresult.sooner hle

theorem declares_nested (hscope : hygiene.Covers scope) :
    hygiene.Declares bound scope (Elab.nested scope) := by
  refine .modifyGet fun state h hbound =>
    ⟨h.push scope allNames_empty hygiene.empty,
      Holds.stage_le_push h scope rfl, Opened.sooner ⟨Holds.covers_push h hscope,
        Scope.startsAbove_push (Holds.size h) scope {}, fun _ => ?_⟩ hbound⟩
  have hframe := state.tree.frame_push scope { level := state.tree.level scope + 1 }
  exact ⟨state.tree.frames.size, rfl, le_rfl,
    by simp [invariant, ScopeTree.nested, ScopeTree.nestedAt, ScopeTree.push],
    congrArg Frame.level hframe, congrArg Frame.fixity hframe⟩

theorem declares_nested_bind (hscope : hygiene.Covers scope) {rest : Scope → Elab Scope}
    (hrest : ∀ later, bound ≤ later → ∀ result, hygiene.Opened scope bound later result →
      hygiene.Ensures later (fun _ value => value = result) (rest result)) :
    hygiene.Declares bound scope (Elab.nested scope >>= rest) :=
  (declares_nested hscope).bind fun later hlater result hresult =>
    (hrest later hlater result hresult).mono fun _ _ hle hvalue => hvalue ▸ hresult.later hle

theorem ensures_withChanges (hscope : hygiene.Covers scope) (changes : Changes)
    (hstatics : changes.statics.AllNames (hygiene.names bound))
    (hdynamics : hygiene.dynamics changes.dynamics) :
    hygiene.Ensures bound (fun _ result =>
        hygiene.Covers result ∧ result.StartsAbove hygiene.base)
      (withChanges scope changes) :=
  .modifyGet fun _ h hbound =>
    ⟨h.push scope (basis_later hbound hstatics) hdynamics,
      Holds.stage_le_push h scope rfl, Holds.covers_push h hscope,
      Scope.startsAbove_push (Holds.size h) scope {}⟩

theorem keeps_write (habove : scope.StartsAbove hygiene.base) {f : Frame → Frame}
    (hf : ∀ later, bound ≤ later → Frame.Adds (hygiene.names later) f) :
    hygiene.Keeps bound (write scope f) :=
  .modify fun _ h hbound =>
    ⟨{ h with
        size := h.size.trans_eq (size_write _ _ _).symm
        statics := fun number hinside => of_frame_write (Q := fun frame => frame.statics.AllNames _)
          (h.statics number hinside) scope (hf _ hbound).statics
        dynamics := fun number => of_frame_write (Q := fun frame => hygiene.dynamics frame.dynamics)
          (h.dynamics number) scope
          fun frame hframe => ((hf _ hbound).dynamics frame).symm ▸ hframe },
      le_rfl, .write habove (hf _ hbound).steady, .refl⟩

theorem keeps_writeValue (habove : scope.StartsAbove hygiene.base)
    (name : String) (h : value.type.AllNames (hygiene.names bound)) :
    hygiene.Keeps bound (write scope (·.setStaticValue name value)) :=
  keeps_write habove fun _ hle => Frame.adds_setStaticValue name (type_later hle h)

theorem keeps_writeType (habove : scope.StartsAbove hygiene.base) (name : String)
    (h : info.type.AllNames (hygiene.names bound)) :
    hygiene.Keeps bound (write scope (·.setStaticType name info)) :=
  keeps_write habove fun _ hle => Frame.adds_setStaticType name (type_later hle h)

theorem keeps_newTypeId (name : String) : hygiene.Keeps bound (newTypeId name) :=
  .modifyGet fun _ h _ => ⟨{ h with }, ⟨le_rfl, .newTypeId name, .refl⟩, trivial⟩

theorem ensures_look {P : hygiene.Stage → α → Prop} {f : ScopeTree → α}
    (h : ∀ state, hygiene.Holds state → bound ≤ ⟨state⟩ → P ⟨state⟩ (f state.tree)) :
    hygiene.Ensures bound P (look f) :=
  .get_bind fun state hholds hbound => ⟨hholds, le_rfl, h state hholds hbound⟩

theorem ensures_look_bind {β : Type} {Q : hygiene.Stage → β → Prop} {f : ScopeTree → α}
    {next : α → Elab β} (h : ∀ state, hygiene.Holds state → bound ≤ ⟨state⟩ →
      hygiene.Ensures ⟨state⟩ Q (next (f state.tree))) :
    hygiene.Ensures bound Q (look f >>= next) :=
  fun state hholds hbound => h state hholds hbound state hholds le_rfl

theorem keeps_look (f : ScopeTree → α) : hygiene.Keeps bound (look f) :=
  ensures_look fun _ _ _ => trivial

theorem ensures_value? (hscope : hygiene.Covers scope) (name : LongName) : hygiene.Ensures bound
      (fun later found => ∀ value ∈ found,
        value.type.AllNames (hygiene.names later)) (value? scope name) :=
  ensures_look fun _ h _ _ hfound => h.staticValue? hscope hfound

theorem keeps_failAt {P : hygiene.Stage → α → Prop} (span : Span) (cause : ElabCause) :
    hygiene.Ensures bound P (failAt span cause) :=
  .throw fun _ _ => trivial

/-! ## Type variables -/

theorem keeps_modify {f : ElabState → ElabState}
    (h : ∀ state, hygiene.Holds state → bound ≤ ⟨f state⟩ → hygiene.Holds (f state))
    (hf : ∀ state, (⟨state⟩ : hygiene.Stage) ≤ ⟨f state⟩ := by
      exact fun _ => stage_le le_rfl rfl .refl) : hygiene.Keeps bound (modify f) :=
  .modify fun state hholds hbound => ⟨h state hholds (hbound.trans (hf state)), hf state⟩

theorem Holds.later (h : hygiene.Holds state) {supply : NameSupply}
    (hle : (⟨state⟩ : hygiene.Stage) ≤ ⟨{ state with supply }⟩) :
    hygiene.Holds { state with supply } :=
  { h with
    statics := fun number hinside => basis_later hle (h.statics number hinside)
    store := h.store.imp fun _ => mono hle
    monomorphic := types_later hle h.monomorphic
    explicit := fun table htable entry hentry =>
      mono hle (h.explicit table htable entry hentry)
    flexible := types_later hle h.flexible }

theorem ensures_freshName : hygiene.Ensures bound hygiene.names freshName :=
  .modifyGet fun _ h _ =>
    ⟨h.later (stage_le (Nat.le_succ _) rfl .refl),
      stage_le (Nat.le_succ _) rfl .refl, hygiene.given _⟩

theorem ensures_freshNameLike (name : String) :
    hygiene.Ensures bound hygiene.names (freshNameLike name) := by
  refine .modifyGet fun state h _ =>
    ⟨h.later (stage_le (Nat.le_succ _) rfl .refl), stage_le (Nat.le_succ _) rfl .refl, ?_⟩
  simp only [NameSupply.freshLike]
  split
  · exact (hygiene.closed _).equality _ (hygiene.given _)
  · exact hygiene.given _

theorem givesType_fresh : hygiene.GivesType bound fresh :=
  ensures_freshName.bind_pure fun _ _ _ hname => allNames_plain.mpr hname

theorem givesType_freshRecord {fields : Table Ty}
    (hfields : ∀ field ∈ fields, field.2.AllNames (hygiene.names bound))
    (span : Span) : hygiene.GivesType bound (freshRecord fields span) := by
  refine ensures_freshName.bind fun next hnext row hrow => ?_
  have htype := allNames_plain.mpr hrow
  refine .bind (keeps_modify (fun state h hbound => { h with store := ?_, flexible := ?_ })
    fun _ => stage_le le_rfl rfl (.row _ fields .refl)) fun later hlater _ _ => ?_
  · have hrow := mono hbound hrow
    have hfields := types_later (hnext.trans hbound) hfields
    exact h.store.bind hrow (allNames_record.mpr hfields) false
  · exact forall_mem_cons.mpr ⟨type_later hbound htype, h.flexible⟩
  · exact .pure fun _ hle => type_later (hlater.trans hle) htype

theorem givesType_instantiateScheme {scheme : Ty} (h : scheme.AllNames (hygiene.names bound)) :
    hygiene.GivesType bound (instantiateScheme scheme) := by
  obtain ⟨hbinders, hbody⟩ := h.unquantify
  unfold instantiateScheme
  split
  · exact .pure fun _ hle => type_later hle h
  · rename_i binders body _ heq
    rw [heq] at hbinders hbody
    have hnew : hygiene.GivesFields bound (binders.mapM fun binder => do
        if binder.free then
          return (binder.name, var binder.name binder.domain true)
        else
          return (binder.name, var (← freshNameLike binder.name) binder.domain false)) := by
      refine .mapM (lasting_field hygiene) fun binder hbinder later hlater => ?_
      obtain ⟨hname, hdomain⟩ := hbinders binder hbinder
      refine .ite (fun _ => .pure fun last hlast => ?_) fun _ => ?_
      · exact allNames_var.mpr ⟨mono (hlater.trans hlast) hname,
          types_later (hlater.trans hlast) hdomain⟩
      · exact (ensures_freshNameLike _).bind_pure fun _ hnext _ hname =>
          allNames_var.mpr ⟨hname, types_later (hlater.trans hnext) hdomain⟩
    refine hnew.bind_pure fun _ hnext types htypes => ?_
    refine (type_later hnext hbody).substitute fun entry hentry => ?_
    exact htypes entry (mem_of_mem_ofList hentry)

/-! ## Explicit type variables -/

theorem keeps_checkParameters (span : Span) (names : List String) :
    hygiene.Keeps bound (checkParameters span names) := by
  unfold checkParameters
  generalize ([] : List String) = seen
  induction names generalizing seen with
  | nil => exact .pure fun _ _ => trivial
  | cons name rest ih => exact .ite (fun _ => keeps_failAt _ _) fun _ => ih _

theorem ensures_explicitTable (declared mentioned : List String) (span : Span) :
    hygiene.Ensures bound (fun later table => ∀ entry ∈ table, hygiene.names later entry.2)
      (explicitTable declared mentioned span) := by
  have hadd : ∀ {next : hygiene.Stage} (name : String) {table : Table String},
      (∀ entry ∈ table, hygiene.names next entry.2) →
      hygiene.Ensures next (fun later table => ∀ entry ∈ table, hygiene.names later entry.2)
        (do return Table.insert table name (← freshNameLike name)) := by
    intro next name table htable
    refine (ensures_freshNameLike name).bind fun later hlater new hnew => ?_
    have hlasting := lasting_entries hygiene _ _ _ hlater htable
    exact .pure fun _ hle => lasting_entries hygiene _ _ _ hle (forall_mem_insert hlasting hnew)
  refine (keeps_checkParameters span declared).bind fun first _ _ _ => ?_
  refine .bind (.foldlM (lasting_entries hygiene) (by simp)
    fun name _ later _ table htable => hadd name htable)
    fun second _ own hown => ?_
  refine .bind .get fun third hthird state _ => ?_
  refine .foldlM (lasting_entries hygiene) (lasting_entries hygiene _ _ _ hthird hown)
    fun name _ later _ table htable => ?_
  exact .ite (fun _ => .pure fun _ hle => lasting_entries hygiene _ _ _ hle htable)
    fun _ => hadd name htable

theorem keeps_enterExplicit (declared mentioned : List String) (span : Span) :
    hygiene.Keeps bound (enterExplicit declared mentioned span) := by
  refine (ensures_explicitTable declared mentioned span).bind fun next _ table htable =>
      keeps_modify fun state h hbound => ?_
  exact { h with
    explicit := forall_mem_cons.mpr
      ⟨fun entry hentry => mono hbound (htable entry hentry), h.explicit⟩ }

section Around

variable {P : hygiene.Stage → α → Prop} (hP : Invariant.Lasting P)
  (haction : ∀ later, bound ≤ later → hygiene.Ensures later P action)
include hP haction

theorem ensures_outsideExplicit : hygiene.Ensures bound P (outsideExplicit action) := by
  refine .bind .get fun next hnext state hstate => ?_
  obtain ⟨h, rfl⟩ := hstate
  split
  · exact haction _ hnext
  · rename_i table rest heq
    obtain ⟨htable, hrest⟩ := forall_mem_cons.mp (heq ▸ Holds.explicit h)
    refine .bind (keeps_modify fun _ h hle => { h with
        explicit := fun table htable entry hentry =>
          mono hle (hrest table htable entry hentry) })
      fun second hsecond _ _ => ?_
    refine (haction second (hnext.trans hsecond)).bind fun third hthird result hresult => ?_
    refine .bind_pure (keeps_modify fun _ h hle => { h with
        explicit := forall_mem_cons.mpr ⟨fun entry hentry =>
          mono ((hsecond.trans hthird).trans hle) (htable entry hentry),
          h.explicit⟩ }) fun _ hle _ _ => hP _ _ _ hle hresult

theorem ensures_keepingMonomorphic : hygiene.Ensures bound P (keepingMonomorphic action) := by
  refine .bind .get fun next hnext state hstate => ?_
  obtain ⟨h, rfl⟩ := hstate
  refine (haction _ hnext).bind fun second hsecond result hresult => ?_
  refine .bind_pure (keeps_modify fun _ h' hle => { h' with
      monomorphic := types_later (hsecond.trans hle) (Holds.monomorphic h) })
    fun _ hthird _ _ => hP _ _ _ hthird hresult

theorem ensures_withMonomorphic {types : List Ty}
    (htypes : ∀ type ∈ types, type.AllNames (hygiene.names bound)) :
    hygiene.Ensures bound P (withMonomorphic types action) := by
  refine ensures_keepingMonomorphic hP fun later hlater => ?_
  refine .bind (keeps_modify fun _ h hle => { h with
      monomorphic := forall_mem_append.mpr ⟨types_later (hlater.trans hle) htypes, h.monomorphic⟩ })
    fun next hnext _ _ => ?_
  exact haction next (hlater.trans hnext)

theorem ensures_inBinding : hygiene.Ensures bound P (inBinding action) := by
  refine .bind (keeps_modify fun _ h _ => { h with }) fun first hfirst _ _ => ?_
  refine (haction first hfirst).bind fun second _ result hresult => ?_
  refine .bind_pure (keeps_modify fun _ h _ => { h with })
    fun _ hthird _ _ => hP _ _ _ hthird hresult

end Around

/-! ## Types in a scope -/

variable (hscope : hygiene.Covers scope)
include hscope

theorem Holds.merge (h : hygiene.Holds state) (hleft : left.AllNames (hygiene.names ⟨state⟩))
    (hright : right.AllNames (hygiene.names ⟨state⟩)) :
    Yields ((namesKind (hygiene.names ⟨state⟩)).Merged state.store)
      (merge (state.tree.typeEnv scope) state.store left right) :=
  ((namesKind_kept (hygiene.closed _) (h.typeEnv hscope) _).merge h.store hleft hright).yields

theorem givesType_unify (hleft : left.AllNames (hygiene.names bound))
    (hright : right.AllNames (hygiene.names bound)) (span : Span) (context : ClashContext) :
    hygiene.GivesType bound (unify scope left right span context) := by
  refine .get_bind fun state h hbound => ?_
  have hmerge := Holds.merge hscope h (type_later hbound hleft) (type_later hbound hright)
  cases hmerged : merge (state.tree.typeEnv scope) state.store left right with
  | ok result =>
    obtain ⟨htype, hstore⟩ := hmerge _ hmerged
    exact ⟨{ h with store := hstore }, stage_le le_rfl rfl (.merge .refl hmerged), htype⟩
  | error fault => cases fault <;> exact ⟨h, le_rfl, trivial⟩

theorem givesType_resolve (htype : type.AllNames (hygiene.names bound)) :
    hygiene.GivesType bound (resolve scope type) := by
  refine .get_bind fun state h hbound => ?_
  have hinstance := Ty.AllNames.instantiate (hygiene.closed _)
    (Holds.typeEnv h hscope) (Holds.store h) (type_later hbound htype)
  cases hresult : type.instantiate (state.tree.typeEnv scope) state.store with
  | ok result => exact ⟨h, le_rfl, hinstance _ hresult⟩
  | error fault => exact ⟨h, le_rfl, trivial⟩

theorem keeps_leaveExplicit (span : Span) : hygiene.Keeps bound (leaveExplicit scope span) := by
  have hcheck : ∀ {next : hygiene.Stage} (table : Table String) (seen : List String),
      (∀ entry ∈ table, hygiene.names next entry.2) →
      hygiene.Keeps next (leaveExplicit.check scope span seen table) := by
    intro next table
    induction table generalizing next with
    | nil => exact fun _ _ => .pure fun _ _ => trivial
    | cons entry table ih =>
      intro seen htable
      obtain ⟨hentry, hrest⟩ := forall_mem_cons.mp htable
      refine (givesType_resolve hscope (allNames_plain.mpr hentry)).bind
        fun later hlater type _ => ?_
      split
      · refine .ite (fun _ => ih _ fun entry hentry => ?_) fun _ => keeps_failAt _ _
        exact mono hlater (hrest entry hentry)
      · exact keeps_failAt _ _
  refine .bind .get fun next _ state hstate => ?_
  obtain ⟨h, rfl⟩ := hstate
  split
  · exact .pure fun _ _ => trivial
  · rename_i table rest heq
    obtain ⟨htable, hrest⟩ := forall_mem_cons.mp (heq ▸ Holds.explicit h)
    refine .bind (keeps_modify fun _ h hle => { h with
        explicit := fun table htable entry hentry =>
          mono hle (hrest table htable entry hentry) })
      fun later hlater _ _ => ?_
    exact hcheck table [] fun entry hentry => mono hlater (htable entry hentry)

theorem keeps_environment : hygiene.Keeps bound (environment scope) := by
  refine .bind .get fun next _ state hstate => ?_
  obtain ⟨h, rfl⟩ := hstate
  refine .bind_pure (.mapM (Q := fun _ _ => True) (fun _ _ _ _ _ => trivial)
    fun type htype later hle => ?_) fun _ _ _ _ => trivial
  refine (givesType_resolve hscope (type_later hle ?_)).keeps
  rcases mem_append.mp htype with htype | htype
  · exact Holds.monomorphic h type (mem_reverse.mp htype)
  · obtain ⟨table, htable, htype⟩ := mem_flatMap.mp htype
    obtain ⟨name, hname, rfl⟩ := mem_map.mp htype
    obtain ⟨entry, hentry, rfl⟩ := mem_map.mp hname
    exact allNames_plain.mpr (Holds.explicit h table htable entry hentry)

theorem keeps_settleOverloading (htype : type.AllNames (hygiene.names bound)) (span : Span) :
    hygiene.Keeps bound (settleOverloading scope type span) := by
  refine (givesType_resolve hscope htype).bind fun next _ type htype => ?_
  have hdomains := htype.variableDomains false
  refine .discard (.forIn fun entry hentry later hlater => ?_)
  obtain ⟨name, domain⟩ := entry
  obtain ⟨hname, hdomain⟩ := hdomains _ hentry
  cases domain with
  | nil => exact .pure fun _ _ => trivial
  | cons default domain =>
    exact .discard (givesType_unify hscope (type_later hlater (allNames_var.mpr ⟨hname, hdomain⟩))
      (type_later hlater (hdomain default (by simp))) _ _)

theorem givesType_generalize (htype : type.AllNames (hygiene.names bound)) (expansive : Bool)
    (span : Span) : hygiene.GivesType bound (Elab.generalize scope type expansive span) := by
  have hrest : ∀ later, bound ≤ later → hygiene.GivesType later (do
      let type ← resolve scope type
      let domains := type.variableDomains false
      if expansive then
        if 0 < (← get).level then
          modify fun state => { state with monomorphic := type :: state.monomorphic }
          return type
        else if (Table.values domains).all fun domain => !domain.isEmpty then
          return type
        else
          modify fun state => { state with warnings := ⟨type, span⟩ :: state.warnings }
          return type.makeFree
      else
        let around ← environment scope
        let free := type.variableDomains true
        let quantified := type.variableNames.filter fun name =>
          !around.contains name && !Table.contains free name &&
            (Table.get? domains name).any List.isEmpty
        return type.quantify quantified) := by
    intro later hlater
    refine (givesType_resolve hscope (type_later hlater htype)).bind fun next _ type htype => ?_
    refine .ite (fun _ => ?_) fun _ => ?_
    · refine .bind .get fun second hsecond state _ => ?_
      refine .ite (fun _ => ?_) fun _ => .ite (fun _ => ?_) fun _ => ?_
      · refine .bind_pure (keeps_modify fun _ h hle => { h with
            monomorphic := forall_mem_cons.mpr
              ⟨type_later (hsecond.trans hle) htype, h.monomorphic⟩ })
          fun _ hthird _ _ => type_later (hsecond.trans hthird) htype
      · exact .pure fun _ hle => type_later (hsecond.trans hle) htype
      · refine .bind_pure (keeps_modify fun _ h _ => { h with })
          fun _ hthird _ _ => (type_later (hsecond.trans hthird) htype).makeFree
    · refine (keeps_environment hscope).bind_pure fun second hsecond _ _ => ?_
      have hlast := type_later hsecond htype
      exact hlast.quantify fun name hname => hlast.variableNames name (mem_of_mem_filter hname)
  unfold Elab.generalize
  refine .bind .get fun next hnext state _ => ?_
  refine .guarded ?_ fun later hlater => hrest later (hnext.trans hlater)
  exact keeps_settleOverloading hscope (type_later hnext htype) span

theorem keeps_checkFlexible : hygiene.Keeps bound (checkFlexible scope) := by
  refine .bind .get fun next _ state hstate => ?_
  obtain ⟨h, rfl⟩ := hstate
  refine .bind (keeps_modify fun _ h _ => { h with flexible := by simp })
    fun second hsecond _ _ => ?_
  refine .discard (.forIn fun entry hentry later hlater => ?_)
  have hentry := Holds.flexible h entry (mem_reverse.mp hentry)
  refine (givesType_resolve hscope
    (type_later (hsecond.trans hlater) hentry)).bind fun _ _ _ _ => ?_
  exact .guarded (keeps_failAt _ _) fun _ _ => .pure fun _ _ => trivial

theorem givesBasis_resolveBasis {finish : Ty → Ty}
    (hfinish : ∀ {P type}, Ty.AllNames P type → (finish type).AllNames P)
    (h : basis.AllNames (hygiene.names bound)) :
    hygiene.GivesBasis bound (resolveBasis scope finish basis) := by
  induction basis using walk (fun entries => ∀ {bound},
      (∀ entry ∈ entries, entry.2.AllNames (hygiene.names bound)) →
      hygiene.Ensures bound (fun later found => ∀ entry ∈ found,
        entry.2.AllNames (hygiene.names later)) (resolveStructures scope finish entries))
      generalizing bound with
  | basis _ _ _ _ _ ih =>
    obtain ⟨htypes, hvalues, hstructures, hsignatures, hfunctors⟩ := allNames_iff.mp h
    refine .bind (.mapM (Q := fun later (entry : String × StaticValue) =>
      entry.2.type.AllNames (hygiene.names later))
      (fun _ _ _ hle h => type_later hle h)
      fun entry hentry later hlater => ?_)
      fun first hfirst values hvalues => ?_
    · refine (givesType_resolve hscope (type_later hlater (hvalues entry hentry))).bind_pure
        fun _ _ type htype => ?_
      exact hfinish htype
    · refine (ih (structures_later hfirst hstructures)).bind_pure
        fun second hsecond structures hstructures => ?_
      have hlast := hfirst.trans hsecond
      exact allNames_iff.mpr ⟨types_later hlast htypes,
        types_later hsecond hvalues, hstructures,
        structures_later hlast hsignatures,
        fun entry hentry name hname => mono hlast (hfunctors entry hentry name hname)⟩
  | nil =>
    exact .pure fun _ _ => by simp
  | cons entry entries ih ihEntries h =>
    obtain ⟨hentry, hrest⟩ := forall_mem_cons.mp h
    refine (ih hentry).bind fun first hfirst basis hbasis => ?_
    refine (ihEntries (structures_later hfirst hrest)).bind_pure
      fun second hsecond others hothers => ?_
    exact forall_mem_cons.mpr ⟨basis_later hsecond hbasis, hothers⟩

end Hygiene

end Sml
