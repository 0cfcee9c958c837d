import Sml.Proofs.ScopeGrowth

/-!
# Regions of frames put into one

A declaration is carried out in a region of new frames, and what they hold is
put into one frame in the end.  A name that is looked up in that frame has the
meaning it had in the region, except for what was there only while the
declaration was made.
-/

namespace Sml

open Frame List ScopeTree Table Changes

variable {α : Type} {added scope : Scope} {limit : Nat}

/-! ## Tables in order -/

structure Frame.InOrder (frame : Frame) : Prop where
  staticTypes : Ordered frame.statics.types
  staticValues : Ordered frame.statics.values
  dynamicTypes : Ordered frame.dynamics.types
  dynamicValues : Ordered frame.dynamics.values

structure Changes.InOrder (changes : Changes) : Prop where
  staticTypes : Ordered changes.statics.types
  staticValues : Ordered changes.statics.values
  dynamicTypes : Ordered changes.dynamics.types
  dynamicValues : Ordered changes.dynamics.values

inductive Entry where
  | staticValue (name : String) (value : StaticValue)
  | staticType (name : String) (info : TypeInfo)
  | staticStructure (name : String) (basis : StaticBasis)
  | staticSignature (name : String) (basis : StaticBasis)
  | staticFunctor (name : String) (functor : StaticFunctor)
  | statics (basis : StaticBasis)
  | assumption (name : String) (id : Nat) (what : Assumption)
  | dynamicValue (name : String) (value : DynamicValue)
  | dynamicType (name : String) (type : DynamicType)
  | dynamicStructure (name : String) (basis : DynamicBasis)
  | dynamicSignature (name : String) (interface : Interface)
  | dynamicFunctor (name : String) (functor : DynamicFunctor)
  | dynamics (basis : DynamicBasis)
  | fixity (name : String) (status : Fixity)
  | context (store : Store) (supply : NameSupply)

namespace Entry

def into : Entry → Frame → Frame
  | .staticValue name value => setStaticValue name value
  | .staticType name info => setStaticType name info
  | .staticStructure name basis => setStaticStructure name basis
  | .staticSignature name basis => setStaticSignature name basis
  | .staticFunctor name functor => setStaticFunctor name functor
  | .statics basis => installStatics basis
  | .assumption name id what => assume name id what
  | .dynamicValue name value => setDynamicValue name value
  | .dynamicType name type => setDynamicType name type
  | .dynamicStructure name basis => setDynamicStructure name basis
  | .dynamicSignature name interface =>
    setDynamicSignature name interface
  | .dynamicFunctor name functor => setDynamicFunctor name functor
  | .dynamics basis => installDynamics basis
  | .fixity name status => setFixity name status
  | .context store supply => fun frame =>
    { frame with context := some (store, supply) }

theorem level_into (entry : Entry) (frame : Frame) : (entry.into frame).level = frame.level := by
  cases entry with
  | statics basis => exact (frame.installStatics_steady basis).1
  | dynamics basis => exact (frame.evaluated_installDynamics basis).level
  | _ => rfl

end Entry

namespace Frame.InOrder

variable {frame : Frame} (h : frame.InOrder)
include h

theorem setStaticValue (name : String)
    (value : StaticValue) : (frame.setStaticValue name value).InOrder :=
  ⟨h.staticTypes, ordered_insert h.staticValues _ _, h.dynamicTypes, h.dynamicValues⟩

theorem setDynamicValue (name : String)
    (value : DynamicValue) : (frame.setDynamicValue name value).InOrder :=
  ⟨h.staticTypes, h.staticValues, h.dynamicTypes, ordered_insert h.dynamicValues _ _⟩

theorem setDynamicType (name : String)
    (type : DynamicType) : (frame.setDynamicType name type).InOrder :=
  ⟨h.staticTypes, h.staticValues, ordered_insert h.dynamicTypes _ _, h.dynamicValues⟩

theorem installStatics (basis : StaticBasis) : (frame.installStatics basis).InOrder := by
  refine foldlRecOn (motive := InOrder) basis.values _ ?_
    fun _ h entry _ => h.setStaticValue entry.1 entry.2
  exact ⟨ordered_override h.staticTypes _, h.staticValues, h.dynamicTypes, h.dynamicValues⟩

theorem installDynamics (basis : DynamicBasis) : (frame.installDynamics basis).InOrder := by
  have htypes := foldlRecOn (motive := InOrder) basis.types
    (fun frame entry => frame.setDynamicType entry.1 entry.2) h
    fun _ h entry _ => h.setDynamicType entry.1 entry.2
  have hvalues := foldlRecOn (motive := InOrder) basis.values
    (fun frame entry => frame.setDynamicValue entry.1 entry.2) htypes
    fun _ h entry _ => h.setDynamicValue entry.1 entry.2
  exact ⟨hvalues.staticTypes, hvalues.staticValues, hvalues.dynamicTypes, hvalues.dynamicValues⟩

theorem into (entry : Entry) : (entry.into frame).InOrder := by
  cases entry with
  | staticValue name value => exact h.setStaticValue name value
  | staticType name info =>
    exact ⟨ordered_insert h.staticTypes _ _, h.staticValues, h.dynamicTypes, h.dynamicValues⟩
  | statics basis => exact h.installStatics basis
  | dynamicValue name value => exact h.setDynamicValue name value
  | dynamicType name type => exact h.setDynamicType name type
  | dynamics basis => exact h.installDynamics basis
  | staticStructure | staticSignature | staticFunctor | assumption
  | dynamicStructure | dynamicSignature | dynamicFunctor | fixity | context =>
    exact ⟨h.staticTypes, h.staticValues, h.dynamicTypes, h.dynamicValues⟩

end Frame.InOrder

/-! ## Regions -/

/-- How a region begins with a new frame around `root` and goes on: frames are
made inside, empty or with changes in them, entries are written into any
frame, and other frames may be made elsewhere. -/
inductive Region (before : ScopeTree) (root : Scope) : ScopeTree → Scope → Prop where
  | group : Region before root (before.nested root).2 (before.nested root).1
  | nested {now : ScopeTree} {scope : Scope}
      (h : Region before root now scope) :
      Region before root (now.nested scope).2 (now.nested scope).1
  | withChanges {now : ScopeTree} {scope : Scope}
      (h : Region before root now scope) (changes : Changes)
      (inOrder : changes.InOrder) :
      Region before root (now.withChanges scope changes).2 (now.withChanges scope changes).1
  | write {now : ScopeTree} {scope : Scope}
      (h : Region before root now scope) (number : Nat) (entry : Entry) :
      Region before root (now.modifyFrame number entry.into) scope
  | elsewhere {now : ScopeTree} {scope : Scope}
      (h : Region before root now scope) (other : Scope) (frame : Frame) :
      Region before root (now.push other frame).2 scope

structure Region.Shape (before : ScopeTree) (root : Scope) (now : ScopeTree)
    (added : Scope) : Prop where
  size_le : before.frames.size ≤ now.frames.size
  /-- The frames that were there have kept their levels. -/
  level : ∀ number < before.frames.size, (now.frame number).level = (before.frame number).level
  group : added.getLast? = some before.frames.size
  groupLevel : (now.frame before.frames.size).level = before.level root + 1
  within : ∀ number ∈ added, number < now.frames.size
  higher : ∀ number ∈ added, before.level root < (now.frame number).level
  inOrder : ∀ number ∈ added, (now.frame number).InOrder

namespace Region.Shape

variable {before now : ScopeTree} {root added : Scope}

section

variable (h : Shape before root now added)
include h

theorem added_ne_nil : added ≠ [] := by
  rintro rfl
  simpa using h.group

theorem group_mem : before.frames.size ∈ added :=
  mem_of_getLast? h.group

theorem level_lt : before.level root < now.level (added ++ root) := by
  cases added with
  | nil => exact absurd rfl h.added_ne_nil
  | cons number added => exact h.higher number (by simp)

theorem push (other : Scope) (frame : Frame) :
    Shape before root (now.push other frame).2 added := by
  have hkept : ∀ number < now.frames.size,
      (now.push other frame).2.frame number = now.frame number :=
    fun number hnumber => now.frame_push_of_ne other frame hnumber.ne
  have hsize : (now.push other frame).2.frames.size = now.frames.size + 1 := by
    simp [ScopeTree.push]
  have hsize_le := h.size_le
  refine ⟨by omega, fun number hnumber => ?_, h.group, ?_,
    fun number hnumber => ?_, fun number hnumber => ?_, fun number hnumber => ?_⟩
  · rw [hkept number (by omega), h.level number hnumber]
  · rw [hkept _ (h.within _ h.group_mem), h.groupLevel]
  · have := h.within number hnumber
    omega
  · rw [hkept number (h.within number hnumber)]
    exact h.higher number hnumber
  · rw [hkept number (h.within number hnumber)]
    exact h.inOrder number hnumber

theorem inner {frame : Frame} (hlevel : frame.level = now.level (added ++ root) + 1)
    (horder : frame.InOrder) :
    Shape before root (now.push (added ++ root) frame).2 (now.frames.size :: added) := by
  have hpush := h.push (added ++ root) frame
  have hframe := now.frame_push (added ++ root) frame
  have hlower := h.level_lt
  refine ⟨hpush.size_le, hpush.level, ?_, hpush.groupLevel, ?_, ?_, ?_⟩
  · rw [getLast?_cons, h.group]
    rfl
  · intro number hnumber
    rcases mem_cons.mp hnumber with rfl | hnumber
    · simp [ScopeTree.push]
    · exact hpush.within number hnumber
  · intro number hnumber
    rcases mem_cons.mp hnumber with rfl | hnumber
    · rw [hframe, hlevel]
      omega
    · exact hpush.higher number hnumber
  · intro number hnumber
    rcases mem_cons.mp hnumber with rfl | hnumber
    · rwa [hframe]
    · exact hpush.inOrder number hnumber

theorem write (number : Nat) (entry : Entry) :
    Shape before root (now.modifyFrame number entry.into) added := by
  have hsize : (now.modifyFrame number entry.into).frames.size =
      now.frames.size := by
    simp [modifyFrame]
  have hlevel : ∀ other < now.frames.size, ((now.modifyFrame number entry.into).frame other).level =
        (now.frame other).level := by
    intro other hother
    rw [now.frame_modifyFrame number other _ hother]
    split
    · exact entry.level_into _
    · rfl
  refine ⟨hsize ▸ h.size_le, fun other hother => ?_, h.group, ?_,
    fun other hother => hsize ▸ h.within other hother, fun other hother => ?_,
    fun other hother => ?_⟩
  · rw [hlevel other (hother.trans_le h.size_le), h.level other hother]
  · rw [hlevel _ (h.within _ h.group_mem), h.groupLevel]
  · rw [hlevel other (h.within other hother)]
    exact h.higher other hother
  · rw [now.frame_modifyFrame number other _ (h.within other hother)]
    split
    · exact (h.inOrder other hother).into entry
    · exact h.inOrder other hother

end

end Region.Shape

theorem Frame.inOrder_empty (level : Nat) : ({ level } : Frame).InOrder :=
  ⟨ordered_nil, ordered_nil, ordered_nil, ordered_nil⟩

theorem Region.exists_added {before now : ScopeTree} {root inner : Scope}
    (h : Region before root now inner) :
    ∃ added, inner = added ++ root ∧ Shape before root now added := by
  induction h with
  | group =>
    have hframe := before.frame_push root { level := before.level root + 1 }
    refine ⟨[before.frames.size], rfl, ?_, ?_, rfl, ?_, ?_, ?_, ?_⟩
    · simp [ScopeTree.nested, nestedAt, ScopeTree.push]
    · intro number hnumber
      exact congrArg Frame.level (before.frame_push_of_ne root _ hnumber.ne)
    · exact congrArg Frame.level hframe
    · intro number hnumber
      obtain rfl := mem_singleton.mp hnumber
      simp [ScopeTree.nested, nestedAt, ScopeTree.push]
    · intro number hnumber
      obtain rfl := mem_singleton.mp hnumber
      exact (Nat.lt_succ_self _).trans_eq (congrArg Frame.level hframe).symm
    · intro number hnumber
      obtain rfl := mem_singleton.mp hnumber
      exact hframe.symm ▸ inOrder_empty _
  | @nested now scope h ih =>
    obtain ⟨added, rfl, hshape⟩ := ih
    exact ⟨now.frames.size :: added, rfl, hshape.inner rfl (inOrder_empty _)⟩
  | @withChanges now scope h changes inOrder ih =>
    obtain ⟨added, rfl, hshape⟩ := ih
    exact ⟨now.frames.size :: added, rfl, hshape.inner rfl
      ⟨inOrder.staticTypes, inOrder.staticValues, inOrder.dynamicTypes, inOrder.dynamicValues⟩⟩
  | write h number entry ih =>
    obtain ⟨added, rfl, hshape⟩ := ih
    exact ⟨added, rfl, hshape.write number entry⟩
  | elsewhere h other frame ih =>
    obtain ⟨added, rfl, hshape⟩ := ih
    exact ⟨added, rfl, hshape.push other frame⟩

/-! ## Look-ups -/

namespace ScopeTree

section Find

variable {α : Type} (tree : ScopeTree) {limit : Nat} (find : Frame → Option α)

theorem findOuter?_append (hadded : ∀ number ∈ added, limit ≤ (tree.frame number).level) :
    tree.findOuter? limit find (added ++ scope) =
      (added.findSome? fun number => find (tree.frame number)).or
        (tree.findOuter? limit find scope) := by
  induction added with
  | nil => rfl
  | cons number added ih =>
    have hnumber : ¬ (tree.frame number).level < limit := Nat.not_lt.mpr (hadded number (by simp))
    rw [cons_append, findOuter?, findSome?_cons,
      ih fun number hnumber => hadded number (by simp [hnumber])]
    simp only [if_neg hnumber]
    cases find (tree.frame number) with
    | none | some => rfl

theorem find?_append (hne : added ≠ [])
    (hadded : ∀ number ∈ added, limit ≤ (tree.frame number).level) :
    tree.find? limit find (added ++ scope) =
      (added.findSome? fun number => find (tree.frame number)).or
        (tree.findOuter? limit find scope) := by
  cases added with
  | nil => exact absurd rfl hne
  | cons number added =>
    rw [cons_append, find?, findSome?_cons,
      tree.findOuter?_append find fun number hnumber => hadded number (by simp [hnumber])]
    cases find (tree.frame number) with
    | none | some => rfl

end Find

/-- Two scopes give the same answers, of entries that are not pending. -/
structure AnswersAlike (tree : ScopeTree) (limit : Nat) (first second : Scope) : Prop where
  staticValue : ∀ name, tree.staticValueWhere? first (some false) limit name =
    tree.staticValueWhere? second (some false) limit name
  staticType : ∀ name, tree.staticTypeWhere? first (some false) limit name =
    tree.staticTypeWhere? second (some false) limit name
  dynamicValue : ∀ name, tree.dynamicValueWhere? first (some false) limit name =
      tree.dynamicValueWhere? second (some false) limit name
  dynamicType : ∀ name, tree.dynamicTypeWhere? first (some false) limit name =
    tree.dynamicTypeWhere? second (some false) limit name
  staticStructure : ∀ path, tree.staticStructure? first path = tree.staticStructure? second path
  staticSignature : ∀ name, tree.staticSignature? first name = tree.staticSignature? second name
  staticFunctor : ∀ name, tree.staticFunctor? first name = tree.staticFunctor? second name
  dynamicStructure : ∀ path, tree.dynamicStructure? first path = tree.dynamicStructure? second path
  dynamicSignature : ∀ name, tree.dynamicSignature? first name = tree.dynamicSignature? second name
  dynamicFunctor : ∀ name, tree.dynamicFunctor? first name = tree.dynamicFunctor? second name
  fixity : ∀ name, tree.fixity? first limit name = tree.fixity? second limit name
  mayRebind : ∀ name, tree.mayRebind first name = tree.mayRebind second name

end ScopeTree

theorem filter_findSome? {ι : Type} (keep : α → Bool) (find : ι → Option α) (items : List ι) :
    (items.findSome? fun item => (find item).filter keep).filter keep =
      items.findSome? fun item => (find item).filter keep := by
  induction items with
  | nil => rfl
  | cons item items ih =>
    rw [findSome?_cons]
    cases hfound : (find item).filter keep with
    | none => exact ih
    | some found => simp [Option.filter, (Option.filter_eq_some_iff.mp hfound).2]

namespace Region.Shape

variable {before now : ScopeTree} {root added : Scope}

def collapsed (now : ScopeTree) (root added : Scope) : Frame where
  level := now.level root + 1
  statics := (ofFrames (added.map now.frame)).statics
  dynamics := (ofFrames (added.map now.frame)).dynamics
  fixity := (ofFrames (added.map now.frame)).fixity
  rebind := (ofFrames (added.map now.frame)).rebind

section

variable (h : Shape before root now added)
include h

theorem level_root (hroot : root.Within before) : now.level root = before.level root := by
  cases root with
  | nil => rfl
  | cons number root => exact h.level number (hroot number (by simp))

theorem level_group : now.level (before.nested root).1 = before.level root + 1 :=
  h.groupLevel

theorem changesSince_eq (hroot : root.Within before) :
    now.changesSince (added ++ root) (now.level (before.nested root).1) =
      .ofFrames (added.map now.frame) := by
  rw [changesSince, now.visible_append h.added_ne_nil]
  · rfl
  · intro number hnumber
    rw [h.level_group]
    exact h.higher number hnumber
  · rw [h.level_group, h.level_root hroot]
    omega

theorem find?_collapsed (hlimit : limit ≤ before.level root + 1) {find : Frame → Option α}
    (hfind : find (collapsed now root added) =
      added.findSome? fun number => find (now.frame number)) :
    (now.push root (collapsed now root added)).2.find? limit find (now.frames.size :: root) =
      (now.push root (collapsed now root added)).2.find? limit find (added ++ root) := by
  have hframe := now.frame_push root (collapsed now root added)
  have hkept : ∀ number ∈ added, (now.push root (collapsed now root added)).2.frame number =
        now.frame number :=
    fun number hnumber => now.frame_push_of_ne root _ (h.within number hnumber).ne
  have hsame : (added.findSome? fun number =>
      find ((now.push root (collapsed now root added)).2.frame number)) =
        find (collapsed now root added) := by
    rw [hfind]
    exact findSome?_congr fun number hnumber => congrArg find (hkept number hnumber)
  rw [find?_append _ _ h.added_ne_nil, hsame, ScopeTree.find?, hframe]
  · cases find (collapsed now root added) with
    | none | some => rfl
  · intro number hnumber
    rw [hkept number hnumber]
    exact hlimit.trans (h.higher number hnumber)

end

section Tables

variable {α : Type} (h : Shape before root now added) {limit : Nat}
  (hlimit : limit ≤ before.level root + 1)
include h hlimit

theorem find?_table (of : Changes → Table α) (table : Frame → Table α) (hempty : of {} = [])
    (hadd : ∀ changes frame, of (changes.add frame) = orElse (of changes) (table frame))
    (hcollapsed : table (collapsed now root added) = of (.ofFrames (added.map now.frame)))
    (name : String) :
    (now.push root (collapsed now root added)).2.find? limit
        (fun frame => get? (table frame) name) (now.frames.size :: root) =
      (now.push root (collapsed now root added)).2.find? limit
        (fun frame => get? (table frame) name) (added ++ root) := by
  refine h.find?_collapsed hlimit ?_
  rw [hcollapsed, get?_ofFrames of table hempty hadd, findSome?_map]
  rfl

theorem find?_settled (of : Changes → Table α) (table : Frame → Table α) (pending : α → Bool)
    (hempty : of {} = [])
    (hadd : ∀ changes frame, of (changes.add frame) = orElse (of changes)
        (filterValues (fun entry => !pending entry) (table frame)))
    (hcollapsed : table (collapsed now root added) = of (.ofFrames (added.map now.frame)))
    (horder : ∀ frame : Frame, frame.InOrder → Ordered (table frame)) (name : String) :
    (now.push root (collapsed now root added)).2.find? limit
        (fun frame => (get? (table frame) name).filter fun entry =>
          (some false).all (pending entry == ·)) (now.frames.size :: root) =
      (now.push root (collapsed now root added)).2.find? limit
        (fun frame => (get? (table frame) name).filter fun entry =>
          (some false).all (pending entry == ·)) (added ++ root) := by
  have hkeep : (fun entry => (some false).all (pending entry == ·)) =
      fun entry => !pending entry := by
    funext entry
    cases pending entry <;> rfl
  rw [hkeep]
  refine h.find?_collapsed hlimit ?_
  -- The tables of the region in order, what is left of each is found by name.
  have hregion : ((added.map now.frame).findSome? fun frame => get?
      (filterValues (fun entry => !pending entry) (table frame)) name) =
        added.findSome? fun number =>
          (get? (table (now.frame number)) name).filter fun entry => !pending entry := by
    rw [findSome?_map]
    exact findSome?_congr fun number hnumber =>
      get?_filterValues (horder _ (h.inOrder number hnumber)) _ _
  rw [hcollapsed, get?_ofFrames of _ hempty hadd, hregion, filter_findSome?]

end Tables

theorem answersAlike (h : Shape before root now added) (hlimit : limit ≤ before.level root + 1) :
    (now.push root (collapsed now root added)).2.AnswersAlike limit
      (now.frames.size :: root) (added ++ root) where
  staticValue := h.find?_settled hlimit (·.statics.values)
    (·.statics.values) StaticValue.pending rfl (fun _ _ => rfl) rfl
    fun _ horder => horder.staticValues
  staticType := h.find?_settled hlimit (·.statics.types)
    (·.statics.types) TypeInfo.pending rfl (fun _ _ => rfl) rfl
    fun _ horder => horder.staticTypes
  dynamicValue := h.find?_settled hlimit (·.dynamics.values)
    (·.dynamics.values) DynamicValue.pending rfl (fun _ _ => rfl) rfl
    fun _ horder => horder.dynamicValues
  dynamicType := h.find?_settled hlimit (·.dynamics.types)
    (·.dynamics.types) DynamicType.pending rfl (fun _ _ => rfl) rfl
    fun _ horder => horder.dynamicTypes
  staticStructure path := by
    cases path with
    | nil => rfl
    | cons first rest =>
      simp only [staticStructure?]
      rw [h.find?_table (Nat.zero_le _) (·.statics.structures)
        (·.statics.structures) rfl (fun _ _ => rfl) rfl first]
  staticSignature := h.find?_table (Nat.zero_le _)
    (·.statics.signatures) (·.statics.signatures) rfl (fun _ _ => rfl) rfl
  staticFunctor := h.find?_table (Nat.zero_le _)
    (·.statics.functors) (·.statics.functors) rfl (fun _ _ => rfl) rfl
  dynamicStructure path := by
    cases path with
    | nil => rfl
    | cons first rest =>
      simp only [dynamicStructure?]
      rw [h.find?_table (Nat.zero_le _) (·.dynamics.structures)
        (·.dynamics.structures) rfl (fun _ _ => rfl) rfl first]
  dynamicSignature := h.find?_table (Nat.zero_le _)
    (·.dynamics.signatures) (·.dynamics.signatures) rfl (fun _ _ => rfl) rfl
  dynamicFunctor := h.find?_table (Nat.zero_le _)
    (·.dynamics.functors) (·.dynamics.functors) rfl (fun _ _ => rfl) rfl
  fixity := h.find?_table hlimit fixity fixity rfl (fun _ _ => rfl) rfl
  mayRebind name := by
    unfold ScopeTree.mayRebind
    rw [h.find?_table (Nat.zero_le _) rebind rebind rfl (fun _ _ => rfl) rfl name]

end Region.Shape

/-- A region that is put into one frame around its root: the frame is one
level above the root, and every look-up that may leave the region, so with a
limit that is no higher than the region's first frame, is answered there as
in the region. -/
theorem Region.collapse_answersAlike {before now : ScopeTree} {root inner : Scope}
    (hroot : root.Within before) (h : Region before root now inner) :
    let group := (before.nested root).1
    let (collapsed, after) := now.withChanges root (now.changesSince inner (now.level group))
    after.level collapsed = now.level root + 1 ∧
      ∀ limit ≤ now.level group, after.AnswersAlike limit collapsed inner := by
  obtain ⟨added, rfl, hshape⟩ := h.exists_added
  have hafter : now.withChanges root (now.changesSince (added ++ root)
      (now.level (before.nested root).1)) = now.push root (Shape.collapsed now root added) := by
    rw [hshape.changesSince_eq hroot]
    rfl
  simp only [hafter]
  refine ⟨congrArg Frame.level (now.frame_push root _), fun limit hlimit => ?_⟩
  rw [hshape.level_group] at hlimit
  exact hshape.answersAlike hlimit

/-- A region of two frames, where the inner one hides the value of the outer
one only while it is made. -/
theorem Region.collapse_answersAlike_pending :
    let grouped := ({} : ScopeTree).nested .root
    let outer := grouped.2.modifyFrame 1 (Entry.staticValue "x" { type := .int }).into
    let nested := outer.nested grouped.1
    let now := nested.2.modifyFrame 2
      (Entry.staticValue "x" { type := .bool, pending := true }).into
    Region {} .root now nested.1 ∧
      let (collapsed, after) :=
        now.withChanges .root (now.changesSince nested.1 (now.level grouped.1))
      after.level collapsed = 1 ∧ after.AnswersAlike 0 collapsed nested.1 := by
  intro grouped outer nested now
  have hregion : Region {} .root now nested.1 := .write (.nested (.write .group 1 _)) 2 _
  have hcollapse := collapse_answersAlike (by decide) hregion
  exact ⟨hregion, hcollapse.1, hcollapse.2 0 (Nat.zero_le _)⟩

end Sml
