import Sml.Proofs.Interfaces
import Sml.Proofs.TypeNames

/-!
# The names that frames show

Every specification of a signature has a frame of its own, inside the frames
of those before it.  With types forgotten, frames that hold no signatures and
nothing that is pending show an interface.  It is what can be seen through
them, and the interface of the basis that they are put together to.
-/

namespace Sml

open Interface List Option StaticBasis Table

/-! ## Tables and bases in order -/

structure Table.Tidy {α : Type} (K : α → Prop) (table : Table α) : Prop where
  ordered : Ordered table
  all : ∀ entry ∈ table, K entry.2

instance {α : Type} (K : α → Prop) [DecidablePred K] (table : Table α) :
    Decidable (Table.Tidy K table) :=
  decidable_of_iff (Ordered table ∧ ∀ entry ∈ table, K entry.2)
    ⟨fun h => ⟨h.1, h.2⟩, fun h => ⟨h.ordered, h.all⟩⟩

variable {name : String}
variable {basis : StaticBasis} {info : TypeInfo} {α : Type} {number : Nat}

namespace Table.Tidy

variable {α β : Type} {K : α → Prop} {first second : Table α}

theorem nil : Tidy K ([] : Table α) := ⟨ordered_nil, by simp⟩

theorem insert (h : Tidy K first) (name : String) {value : α} (hvalue : K value) :
    Tidy K (insert first name value) :=
  ⟨ordered_insert h.ordered _ _, forall_mem_insert h.all hvalue⟩

theorem orElse (hfirst : Tidy K first) (hsecond : Tidy K second) :
    Tidy K (orElse first second) :=
  ⟨ordered_orElse hfirst.ordered _, fun entry hentry =>
    (mem_of_mem_orElse hentry).elim (hfirst.all entry) (hsecond.all entry)⟩

theorem override (hfirst : Tidy K first) (hsecond : Tidy K second) :
    Tidy K (override first second) :=
  ⟨ordered_override hfirst.ordered _, fun entry hentry =>
    (mem_of_mem_override hentry).elim (hfirst.all entry) (hsecond.all entry)⟩

theorem mapValues {L : β → Prop} {f : α → β} (h : Tidy K first)
    (hf : ∀ entry ∈ first, K entry.2 → L (f entry.2)) : Tidy L (mapValues f first) := by
  refine ⟨(ordered_mapValues _ _).mpr h.ordered, fun entry hentry => ?_⟩
  obtain ⟨old, hold, rfl⟩ := mem_map.mp hentry
  exact hf old hold (h.all old hold)

theorem get? (h : Tidy K first) {value : α}
    (hvalue : get? first name = some value) : K value :=
  h.all _ (mem_of_get? hvalue)

end Table.Tidy

namespace StaticBasis

mutual

/-- Names are in order, nothing is pending and there are no signatures, in
the basis and in its structures. -/
def Tidy : StaticBasis → Prop
  | ⟨types, values, structures, signatures, _⟩ =>
    Table.Tidy (·.pending = false) types ∧
    Table.Tidy (·.pending = false) values ∧
    (Ordered structures ∧ AllTidy structures) ∧ signatures = []

def AllTidy : List (String × StaticBasis) → Prop
  | [] => True
  | (_, basis) :: rest => Tidy basis ∧ AllTidy rest

end

mutual

def decidableTidy : (basis : StaticBasis) → Decidable basis.Tidy
  | ⟨types, values, structures, signatures, _⟩ =>
    haveI := decidableAllTidy structures
    haveI : Decidable (signatures = []) := decidable_of_iff _ isEmpty_iff
    inferInstanceAs (Decidable (Table.Tidy (·.pending = false) types ∧
      Table.Tidy (·.pending = false) values ∧
      (Ordered structures ∧ AllTidy structures) ∧ signatures = []))

def decidableAllTidy : (structures : List (String × StaticBasis)) → Decidable (AllTidy structures)
  | [] => .isTrue trivial
  | (_, basis) :: rest =>
    haveI := decidableTidy basis
    haveI := decidableAllTidy rest
    inferInstanceAs (Decidable (Tidy basis ∧ AllTidy rest))

end

instance : DecidablePred Tidy := decidableTidy

theorem allTidy_iff {structures : List (String × StaticBasis)} :
    AllTidy structures ↔ ∀ entry ∈ structures, entry.2.Tidy := by
  induction structures with
  | nil => simp [AllTidy]
  | cons entry rest ih => simp [AllTidy, ih]

theorem tidy_iff :
    basis.Tidy ↔ Table.Tidy (·.pending = false) basis.types ∧
      Table.Tidy (·.pending = false) basis.values ∧
      Table.Tidy Tidy basis.structures ∧ basis.signatures = [] := by
  obtain ⟨types, values, structures, signatures, functors⟩ := basis
  rw [Tidy, allTidy_iff]
  constructor
  · rintro ⟨htypes, hvalues, ⟨hordered, hall⟩, hnone⟩
    exact ⟨htypes, hvalues, ⟨hordered, hall⟩, hnone⟩
  · rintro ⟨htypes, hvalues, ⟨hordered, hall⟩, hnone⟩
    exact ⟨htypes, hvalues, ⟨hordered, hall⟩, hnone⟩

namespace Tidy

variable {basis other : StaticBasis}

theorem empty : Tidy {} := tidy_iff.mpr ⟨.nil, .nil, .nil, rfl⟩

section

variable (h : basis.Tidy)
include h

theorem types : Table.Tidy (·.pending = false) basis.types := (tidy_iff.mp h).1

theorem values : Table.Tidy (·.pending = false) basis.values := (tidy_iff.mp h).2.1

theorem structures : Table.Tidy Tidy basis.structures := (tidy_iff.mp h).2.2.1

theorem signatures : basis.signatures = [] := (tidy_iff.mp h).2.2.2

theorem ordered_interface : basis.interface.Ordered := by
  rw [interface_eq]
  exact ⟨(ordered_mapValues _ _).mpr h.types.ordered, (ordered_mapValues _ _).mpr h.values.ordered,
    (ordered_mapValues _ _).mpr h.structures.ordered⟩

theorem settled_eq : basis.settled = basis := by
  have htypes := h.types.all
  have hvalues := h.values.all
  obtain ⟨types, values, structures, signatures, functors⟩ := basis
  simp only [settled, filterValues, mk.injEq, and_true, filter_eq_self]
  exact ⟨fun entry hentry => by simp [htypes entry hentry],
    fun entry hentry => by simp [hvalues entry hentry]⟩

theorem orElse (hother : other.Tidy) : (basis.orElse other).Tidy := by
  refine tidy_iff.mpr ⟨h.types.orElse hother.types,
    h.values.orElse hother.values, h.structures.orElse hother.structures, ?_⟩
  rw [StaticBasis.orElse, h.signatures, hother.signatures]
  rfl

theorem override (hother : other.Tidy) : (basis.override other).Tidy := by
  refine tidy_iff.mpr ⟨h.types.override hother.types,
    h.values.override hother.values, h.structures.override hother.structures, ?_⟩
  rw [StaticBasis.override, h.signatures, hother.signatures]
  rfl

theorem mapTypes (f : Ty → Ty) : (basis.mapTypes f).Tidy := by
  induction basis using StaticBasis.induct with
  | step basis ih =>
    have htypes := h.types
    have hvalues := h.values
    have hstructures := h.structures
    have hnone := h.signatures
    obtain ⟨types, values, structures, signatures, functors⟩ := basis
    rw [StaticBasis.mapTypes, mapTypesIn_eq_map]
    rw [tidy_iff]
    dsimp only
    exact ⟨htypes.mapValues fun _ _ h => h, hvalues.mapValues fun _ _ h => h,
      hstructures.mapValues ih, hnone⟩

end

theorem findIn {structures : List (String × StaticBasis)}
    (h : Table.Tidy Tidy structures) {path : List String} {found : StaticBasis}
    (hfound : findIn structures path = some found) : found.Tidy := by
  fun_induction StaticBasis.findIn structures path with
  | case1 => cases hfound
  | case2 structures name => exact h.get? hfound
  | case3 structures name rest _ basis hbasis ih => exact ih (h.get? hbasis).structures hfound
  | case4 => cases hfound

end Tidy

theorem interface_mapTypes (f : Ty → Ty) (basis : StaticBasis) :
    (basis.mapTypes f).interface = basis.interface := by
  induction basis using induct with
  | step basis ih =>
    obtain ⟨types, values, structures, signatures, functors⟩ := basis
    rw [mapTypes, interface_eq, interface_eq, mapTypesIn_eq_map]
    simp only [mapValues, List.map_map, Function.comp_def, Interface.mk.injEq, true_and]
    exact List.map_congr_left fun entry hentry => by rw [ih entry hentry]

theorem interface_override (first second : StaticBasis) : (first.override second).interface =
      first.interface.override second.interface := by
  simp only [interface_eq, override, Interface.override, mapValues_override]

end StaticBasis

variable {path : List String}

namespace ScopeTree

/-- The frames of the scope are tidy but for signatures, which are tidy
themselves. -/
def TidyAt (tree : ScopeTree) (scope : Scope) : Prop := ∀ number ∈ scope,
    StaticBasis.Tidy { (tree.frame number).statics with signatures := [] } ∧
    ∀ entry ∈ (tree.frame number).statics.signatures, entry.2.Tidy

instance (tree : ScopeTree) (scope : Scope) : Decidable (tree.TidyAt scope) :=
  inferInstanceAs (Decidable (∀ number ∈ scope,
    StaticBasis.Tidy { (tree.frame number).statics with signatures := [] } ∧
    ∀ entry ∈ (tree.frame number).statics.signatures, entry.2.Tidy))

namespace TidyAt

variable {tree : ScopeTree} {scope : Scope} (h : tree.TidyAt scope)
include h

theorem staticStructure? (hfound : tree.staticStructure? scope path = some basis) : basis.Tidy := by
  cases path with
  | nil => cases hfound
  | cons first rest =>
    obtain ⟨outer, houter, hrest⟩ := bind_eq_some_iff.mp hfound
    obtain ⟨number, hnumber, hentry⟩ := exists_of_find? houter
    have htidy := (h number hnumber).1.structures.get? hentry
    cases rest with
    | nil =>
      cases hrest
      exact htidy
    | cons second rest => exact .findIn htidy.structures hrest

theorem staticType? (hfound : tree.staticType? scope path name = some info) :
    info.pending = false := by
  cases path with
  | nil =>
    rw [ScopeTree.staticType?] at hfound
    obtain ⟨number, hnumber, hentry⟩ := exists_of_find? hfound
    exact (h number hnumber).1.types.get? hentry
  | cons first rest =>
    obtain ⟨basis, hbasis, hentry⟩ := bind_eq_some_iff.mp hfound
    exact (h.staticStructure? hbasis).types.get? hentry

theorem staticValue? {value : StaticValue}
    (hfound : tree.staticValue? scope path name = some value) : value.pending = false := by
  cases path with
  | nil =>
    rw [ScopeTree.staticValue?] at hfound
    obtain ⟨number, hnumber, hentry⟩ := exists_of_find? hfound
    exact (h number hnumber).1.values.get? hentry
  | cons first rest =>
    obtain ⟨basis, hbasis, hentry⟩ := bind_eq_some_iff.mp hfound
    exact (h.staticStructure? hbasis).values.get? hentry

theorem staticSignature? (hfound : tree.staticSignature? scope name = some basis) : basis.Tidy := by
  obtain ⟨number, hnumber, hentry⟩ := exists_of_find? hfound
  exact (h number hnumber).2 _ (mem_of_get? hentry)

end TidyAt

end ScopeTree

/-! ## What a frame holds -/

/-- The frame is tidy and has the names of the interface. -/
structure Frame.Shows (frame : Frame) (interface : Interface) : Prop where
  tidy : frame.statics.Tidy
  eq : frame.statics.interface = interface

namespace Frame.Shows

variable {frame : Frame} {interface : Interface}

variable (h : frame.Shows interface)
include h

theorem setStaticValue (name : String) {value : StaticValue} (hvalue : value.pending = false) :
    (frame.setStaticValue name value).Shows (interface.addValue name value.status) := by
  refine ⟨tidy_iff.mpr ⟨h.tidy.types,
    h.tidy.values.insert name hvalue, h.tidy.structures, h.tidy.signatures⟩, ?_⟩
  rw [← h.eq, interface_eq, interface_eq]
  simp only [Frame.setStaticValue, addValue, mapValues_insert]

theorem setStaticType (name : String) (hinfo : info.pending = false) :
    (frame.setStaticType name info).Shows { interface with
        types := insert interface.types name info.constructors } := by
  refine ⟨tidy_iff.mpr ⟨h.tidy.types.insert name hinfo,
    h.tidy.values, h.tidy.structures, h.tidy.signatures⟩, ?_⟩
  rw [← h.eq, interface_eq, interface_eq]
  simp only [Frame.setStaticType, mapValues_insert]

theorem resetStaticType (hinfo : info.pending = false)
    (hname : get? interface.types name = some info.constructors) :
    (frame.setStaticType name info).Shows interface := by
  have hshows := h.setStaticType name hinfo
  have hordered : interface.Ordered := h.eq ▸ h.tidy.ordered_interface
  rw [insert_of_get? hordered.types hname] at hshows
  obtain ⟨types, values, structures⟩ := interface
  exact hshows

theorem setStaticStructure (name : String) (hbasis : basis.Tidy) :
    (frame.setStaticStructure name basis).Shows { interface with
        structures := insert interface.structures name basis.interface } := by
  refine ⟨tidy_iff.mpr ⟨h.tidy.types, h.tidy.values,
    h.tidy.structures.insert name hbasis, h.tidy.signatures⟩, ?_⟩
  rw [← h.eq, interface_eq, interface_eq]
  simp only [Frame.setStaticStructure, mapValues_insert]

theorem installStatics (hbasis : basis.Tidy) :
    (frame.installStatics basis).Shows (interface.override basis.interface) := by
  have hvalues : ∀ (values : List (String × StaticValue)) (frame : Frame),
      (values.foldl (fun frame entry => frame.setStaticValue entry.1 entry.2) frame).statics =
      { frame.statics with
        values := override frame.statics.values values } := by
    intro values
    induction values with
    | nil =>
      intro frame
      generalize hstatics : frame.statics = statics
      obtain ⟨types, values, structures, signatures, functors⟩ := statics
      exact hstatics
    | cons entry values ih => exact fun frame => ih _
  have hstatics : (frame.installStatics basis).statics = frame.statics.override basis := hvalues _ _
  refine ⟨?_, ?_⟩
  · rw [hstatics]
    exact h.tidy.override hbasis
  · rw [hstatics, interface_override, h.eq]

end Frame.Shows

/-! ## What frames hold together -/

namespace ScopeTree

variable {tree before after : ScopeTree} {scope : Scope} {interface : Interface}

section Frames

variable (h : ∀ number ∈ scope, after.frame number = before.frame number)
include h

theorem staticView_eq_of_frames : after.staticView scope = before.staticView scope := by
  simp only [staticView, staticType?, staticValue?, staticStructure?,
    staticSignature?, find?_eq_of_frames h]

theorem TidyAt.of_frames (htidy : before.TidyAt scope) : after.TidyAt scope := by
  intro number hnumber
  rw [h number hnumber]
  exact htidy number hnumber

end Frames

/-- The frames are tidy, and the first of them that has a name has what the
interface says. -/
structure Shows (tree : ScopeTree) (frames : List Nat) (interface : Interface) : Prop where
  ordered : interface.Ordered
  tidy : ∀ number ∈ frames, (tree.frame number).statics.Tidy
  types : ∀ name, (frames.findSome? fun number =>
    get? (tree.frame number).statics.interface.types name) = get? interface.types name
  values : ∀ name, (frames.findSome? fun number =>
    get? (tree.frame number).statics.interface.values name) = get? interface.values name
  structures : ∀ name, (frames.findSome? fun number =>
    get? (tree.frame number).statics.interface.structures name) =
      get? interface.structures name

namespace Shows

variable {frames : List Nat}

theorem of_frames (hshows : before.Shows frames interface)
    (h : ∀ number ∈ frames, after.frame number = before.frame number) :
    after.Shows frames interface := by
  refine ⟨hshows.ordered, fun number hnumber => ?_, fun name => ?_, fun name => ?_, fun name => ?_⟩
  · rw [h number hnumber]
    exact hshows.tidy number hnumber
  · rw [← hshows.types]
    exact findSome?_congr fun number hnumber => by rw [h number hnumber]
  · rw [← hshows.values]
    exact findSome?_congr fun number hnumber => by rw [h number hnumber]
  · rw [← hshows.structures]
    exact findSome?_congr fun number hnumber => by rw [h number hnumber]

theorem findSome?_cons_eq_or (find : Nat → Option α) (number : Nat) (numbers : List Nat) :
    (number :: numbers).findSome? find = (find number).or (numbers.findSome? find) := by
  rw [findSome?_cons]
  cases find number <;> rfl

theorem cons (hshows : tree.Shows frames interface) {more : Interface}
    (hframe : (tree.frame number).Shows more) :
    tree.Shows (number :: frames) (interface.override more) := by
  have hmore : more.Ordered := hframe.eq ▸ hframe.tidy.ordered_interface
  refine ⟨hshows.ordered.override more, ?_, fun name => ?_, fun name => ?_, fun name => ?_⟩
  · intro other hother
    rcases mem_cons.mp hother with rfl | hother
    · exact hframe.tidy
    · exact hshows.tidy other hother
  · rw [findSome?_cons_eq_or, hshows.types, hframe.eq, Interface.override,
      get?_override _ hmore.types]
  · rw [findSome?_cons_eq_or, hshows.values, hframe.eq, Interface.override,
      get?_override _ hmore.values]
  · rw [findSome?_cons_eq_or, hshows.structures, hframe.eq, Interface.override,
      get?_override _ hmore.structures]

theorem single (hframe : (tree.frame number).Shows interface) : tree.Shows [number] interface := by
  have hnone : tree.Shows [] {} :=
    ⟨ordered_empty, by simp, fun _ => rfl, fun _ => rfl, fun _ => rfl⟩
  have hordered : interface.Ordered := hframe.eq ▸ hframe.tidy.ordered_interface
  have hshows := hnone.cons hframe
  rwa [empty_override hordered] at hshows

variable (h : tree.Shows frames interface)
include h

theorem staticView_append (scope : Scope) :
    tree.staticView (frames ++ scope) = (tree.staticView scope).under interface := by
  have hsignatures : ∀ name, (frames.findSome? fun number =>
      get? (tree.frame number).statics.signatures name) = none := by
    intro name
    rw [findSome?_eq_none_iff]
    intro number hnumber
    rw [(h.tidy number hnumber).signatures, get?_nil]
  simp only [staticView, View.under, staticType?, staticValue?, staticStructure?,
    staticSignature?, find?_zero, findSome?_append, hsignatures,
    none_or, ← h.types, ← h.values, ← h.structures,
    interface_eq, get?_mapValues, map_or,
    map_findSome?, Function.comp_def, bind_eq_bind,
    bind_fun_some]

theorem tidyAt_append (htidy : tree.TidyAt scope) : tree.TidyAt (frames ++ scope) := by
  intro number hnumber
  rcases mem_append.mp hnumber with hnumber | hnumber
  · have hframe := h.tidy number hnumber
    refine ⟨tidy_iff.mpr ⟨hframe.types, hframe.values, hframe.structures, rfl⟩, ?_⟩
    rw [hframe.signatures]
    simp
  · exact htidy number hnumber

theorem tidy_ofFrames : (Changes.ofFrames (frames.map tree.frame)).statics.Tidy := by
  refine List.foldlRecOn (motive := fun changes : Changes => changes.statics.Tidy)
    _ _ StaticBasis.Tidy.empty fun changes hchanges frame hframe => ?_
  obtain ⟨number, hnumber, rfl⟩ := mem_map.mp hframe
  have htidy := h.tidy number hnumber
  exact hchanges.orElse (htidy.settled_eq.symm ▸ htidy)

theorem get?_ofFrames {β : Type} (table : StaticBasis → Table α) (f : α → β)
    (hempty : table {} = []) (horElse : ∀ first second,
      table (.orElse first second) = orElse (table first) (table second)) (name : String) :
    get? (mapValues f (table (Changes.ofFrames (frames.map tree.frame)).statics)) name =
      frames.findSome? fun number =>
        get? (mapValues f (table (tree.frame number).statics))
          name := by
  rw [get?_mapValues, Changes.get?_ofFrames (table ·.statics)
    (table ·.statics.settled) hempty fun _ _ => horElse _ _,
    findSome?_map, map_findSome?]
  refine findSome?_congr fun number hnumber => ?_
  rw [Function.comp_apply, Function.comp_apply, (h.tidy number hnumber).settled_eq, get?_mapValues]

theorem interface_ofFrames :
    (Changes.ofFrames (frames.map tree.frame)).statics.interface = interface := by
  have hordered := h.tidy_ofFrames.ordered_interface
  have hall := h.ordered
  obtain ⟨types, values, structures⟩ := interface
  rw [interface_eq] at hordered ⊢
  rw [Interface.mk.injEq]
  refine ⟨eq_of_get? hordered.types hall.types fun name => ?_,
    eq_of_get? hordered.values hall.values fun name => ?_,
    eq_of_get? hordered.structures hall.structures fun name => ?_⟩
  · rw [h.get?_ofFrames StaticBasis.types _ rfl fun _ _ => rfl, ← h.types]
    simp only [interface_eq]
  · rw [h.get?_ofFrames StaticBasis.values _ rfl fun _ _ => rfl, ← h.values]
    simp only [interface_eq]
  · rw [h.get?_ofFrames StaticBasis.structures _ rfl fun _ _ => rfl, ← h.structures]
    simp only [interface_eq]

end Shows

end ScopeTree

end Sml
