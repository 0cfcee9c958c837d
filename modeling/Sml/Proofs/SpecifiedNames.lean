import Sml.Proofs.ElaborationScope
import Sml.Proofs.Matching
import Sml.Proofs.ShownNames

/-!
# The names that a signature specifies

The basis that a signature is elaborated to has, with types forgotten, the
interface that is read off the signature and what is in view around it.
-/

namespace Sml

open Interface List ScopeTree StaticBasis

/-! ## New frames -/

/-- A new frame shows the interface, and those before it are as they were. -/
structure ScopeTree.Opened (before : ScopeTree) (interface : Interface)
    (after : ScopeTree) : Prop where
  size_lt : before.frames.size < after.frames.size
  frames : ∀ number, number < before.frames.size → after.frame number = before.frame number
  shows : (after.frame before.frames.size).Shows interface

variable {f : Frame → Frame}

namespace ScopeTree.Opened

variable {before after later : ScopeTree} {first second : Interface}

theorem nested (before : ScopeTree) (scope : Scope) : before.Opened {} (before.nested scope).2 := by
  refine ⟨by simp [ScopeTree.nested, nestedAt, push], fun number hnumber =>
    frame_push_of_ne _ _ _ hnumber.ne, ?_⟩
  rw [ScopeTree.nested, nestedAt, frame_push]
  exact ⟨.empty, rfl⟩

theorem write (h : before.Opened first after) (scope : Scope)
    (hf : ∀ frame : Frame, frame.Shows first → (f frame).Shows second) :
    before.Opened second (after.write (before.frames.size :: scope) f) := by
  refine ⟨by rw [size_write]; exact h.size_lt, fun number hnumber => ?_, ?_⟩
  · rw [ScopeTree.write, frame_modifyFrame_of_ne _ _ hnumber.ne', h.frames number hnumber]
  · rw [ScopeTree.write, frame_modifyFrame _ _ _ _ h.size_lt, if_pos rfl]
    exact hf _ h.shows

theorem of_frames_eq (h : before.Opened first after)
    (hframes : later.frames = after.frames) : before.Opened first later := by
  obtain ⟨size_lt, frames, shows⟩ := h
  simp only [ScopeTree.frame, ← hframes] at size_lt frames shows
  exact ⟨size_lt, frames, shows⟩

end ScopeTree.Opened

variable {bindings : List DatBind} {span : Span}
variable {declared path : List String} {group : List (DatBind × TyCon × List ConstructorEntry)}

namespace Elab

variable {before : ScopeTree} {scope result : Scope} {state after : ElabState}
  {interface more : Interface}

theorem look_eq_ok {α : Type} {f : ScopeTree → α} {value : α}
    (h : look f state = .ok value after) : f state.tree = value ∧ state = after := by
  cases h
  exact ⟨rfl, rfl⟩

theorem opened_write (hopened : before.Opened interface state.tree)
    (hf : ∀ frame : Frame, frame.Shows interface → (f frame).Shows more) {value : Unit}
    (h : write (before.frames.size :: scope) f state = .ok value after) :
    before.Opened more after.tree := by
  cases h
  exact hopened.write scope hf

theorem opened_of_write (hf : ∀ frame : Frame, frame.Shows {} → (f frame).Shows more) (h : (do
      let result ← nested scope
      write result f
      return result : Elab Scope) state = .ok result after) :
    result = state.tree.frames.size :: scope ∧ state.tree.Opened more after.tree := by
  cases h
  exact ⟨rfl, (Opened.nested state.tree scope).write scope hf⟩

/-! ## Datatypes -/

theorem opened_declareDatatypes {group : List (DatBind × TyCon)}
    (hopened : before.Opened interface state.tree)
    (h : declareDatatypes (before.frames.size :: scope) bindings declared state = .ok group after) :
    group.map Prod.fst = bindings ∧ (bindings.map DatBind.name).Nodup ∧
      (∀ binding ∈ bindings, binding.name ∉ declared) ∧
      before.Opened { interface with
          types := groupTypes bindings interface.types }
        after.tree := by
  induction bindings generalizing declared interface state group with
  | nil =>
    obtain ⟨rfl, rfl⟩ := pure_eq_ok_state h
    obtain ⟨types, values, structures⟩ := interface
    exact ⟨rfl, .nil, by simp, hopened⟩
  | cons binding bindings ih =>
    obtain ⟨_, checked, hchecked, h⟩ := bind_eq_ok_state h
    obtain rfl : state = checked := (advances_checkParameters _ _).of_ok hchecked
    split at h
    · cases h
    rename_i hfresh
    obtain ⟨id, numbered, hnumbered, h⟩ := bind_eq_ok_state h
    obtain ⟨_, written, hwritten, h⟩ := bind_eq_ok_state h
    obtain ⟨others, last, hothers, h⟩ := bind_eq_ok_state h
    obtain ⟨rfl, rfl⟩ := pure_eq_ok_state h
    have hframes := ((advances_newTypeId _).of_ok hnumbered).frames
    have hnew : before.Opened { interface with
          types := Table.insert interface.types binding.name
            binding.constructorNames } written.tree :=
      opened_write (hopened.of_frames_eq hframes)
        (fun frame hframe => hframe.setStaticType _ rfl) hwritten
    obtain ⟨hgroup, hnodup, hothers, hlast⟩ := ih hnew hothers
    refine ⟨by rw [map_cons, hgroup], ?_, ?_, hlast⟩
    · rw [map_cons, nodup_cons]
      refine ⟨fun hmem => ?_, hnodup⟩
      obtain ⟨other, hother, hname⟩ := mem_map.mp hmem
      exact hothers other hother (by simp [hname])
    · intro other hother
      rcases mem_cons.mp hother with rfl | hother
      · simpa using hfresh
      · exact fun hmem => hothers other hother (by simp [hmem])

theorem names_constructorEntries {binding : DatBind} {head : TyCon} {constructors : List ConBind}
    {entries : List ConstructorEntry}
    (h : constructorEntries scope binding head constructors declared state = .ok entries after) :
    entries.map ConstructorEntry.name = constructors.map ConBind.name := by
  induction constructors generalizing declared state entries with
  | nil =>
    obtain ⟨rfl, rfl⟩ := pure_eq_ok_state h
    rfl
  | cons constructor constructors ih =>
    unfold constructorEntries at h
    split at h
    · cases h
    obtain ⟨argument, middle, -, h⟩ := bind_eq_ok_state h
    obtain ⟨others, last, hothers, h⟩ := bind_eq_ok_state h
    obtain ⟨rfl, rfl⟩ := pure_eq_ok_state h
    rw [map_cons, map_cons, ih hothers]

theorem names_groupEntries {declared : List (DatBind × TyCon)} {names : List String}
    (h : groupEntries scope declared names state = .ok group after) :
    group.map Prod.fst = declared.map Prod.fst ∧
      ∀ member ∈ group, member.2.2.map ConstructorEntry.name =
        member.1.constructorNames := by
  induction declared generalizing names state group with
  | nil =>
    obtain ⟨rfl, rfl⟩ := pure_eq_ok_state h
    exact ⟨rfl, by simp⟩
  | cons member declared ih =>
    obtain ⟨entries, middle, hentries, h⟩ := bind_eq_ok_state h
    obtain ⟨others, last, hothers, h⟩ := bind_eq_ok_state h
    obtain ⟨rfl, rfl⟩ := pure_eq_ok_state h
    obtain ⟨hgroup, hnames⟩ := ih hothers
    refine ⟨by rw [map_cons, map_cons, hgroup], fun other hother => ?_⟩
    rcases mem_cons.mp hother with rfl | hother
    · exact names_constructorEntries hentries
    · exact hnames other hother

theorem foldl_group (hgroup : group.map Prod.fst = bindings)
    (hnames : ∀ member ∈ group, member.2.2.map ConstructorEntry.name = member.1.constructorNames) :
    group.foldl (fun interface member => member.2.2.foldl
          (fun interface entry => interface.addValue entry.name .constructor)
          interface) { types := groupTypes bindings [] } =
      addDatatypes bindings {} := by
  rw [addDatatypes_eq]
  refine .trans ?_ (foldl_addValue _ _ { types := groupTypes bindings [] })
  rw [← hgroup, flatMap_map, foldl_flatMap]
  refine foldl_ext _ _ _ fun interface member hmember => ?_
  rw [← hnames member hmember, foldl_map]

theorem opened_datatypeBindings (h : datatypeBindings scope bindings state = .ok result after) :
    result = state.tree.frames.size :: scope ∧
      state.tree.Opened (.addDatatypes bindings {}) after.tree := by
  unfold datatypeBindings at h
  obtain ⟨inner, opened, hinner, h⟩ := bind_eq_ok_state h
  cases hinner
  obtain ⟨declared, second, hdeclared, h⟩ := bind_eq_ok_state h
  obtain ⟨group, third, hgroup, h⟩ := bind_eq_ok_state h
  obtain rfl : second = third := (advances_groupEntries _ _ _).of_ok hgroup
  obtain ⟨env, _, henv, h⟩ := bind_eq_ok_state h
  cases henv
  dsimp only at h
  generalize GroupMember.equality _ _ = equality at h
  rcases equality with _ | equality
  · cases h
  obtain ⟨_, fourth, hequality, h⟩ := bind_eq_ok_state h
  obtain ⟨_, fifth, hvalues, h⟩ := bind_eq_ok_state h
  obtain ⟨rfl, rfl⟩ := pure_eq_ok_state h
  obtain ⟨hdeclared, hnodup, -, hopened⟩ := opened_declareDatatypes
    (Opened.nested state.tree scope) hdeclared
  obtain ⟨hmembers, hnames⟩ := names_groupEntries hgroup
  rw [hdeclared] at hmembers
  refine ⟨rfl, ?_⟩
  -- What is found out about equality changes no names.
  have hopened : state.tree.Opened { types := groupTypes bindings [] } fourth.tree := by
    refine of_forIn (P := fun current => state.tree.Opened _ current.tree)
      (fun item hitem middle answer next hmiddle hround => ?_) hequality hopened
    obtain ⟨_, written, hwritten, hround⟩ := bind_eq_ok_state hround
    obtain ⟨rfl, rfl⟩ := pure_eq_ok_state hround
    have hmember : item.1.1 ∈ bindings := hmembers ▸ mem_map_of_mem (of_mem_zip hitem).1
    exact ⟨rfl, opened_write hmiddle (fun frame hframe =>
      hframe.resetStaticType rfl (get?_groupTypes_of_mem hnodup hmember _)) hwritten⟩
  rw [← foldl_group hmembers hnames]
  refine foldl_of_forIn (P := fun interface current => state.tree.Opened interface current.tree)
    (fun member _ interface middle answer next hmiddle hround => ?_)
    hvalues hopened
  obtain ⟨_, written, hwritten, hround⟩ := bind_eq_ok_state hround
  obtain ⟨rfl, rfl⟩ := pure_eq_ok_state hround
  refine ⟨rfl, foldl_of_forIn
    (P := fun interface current => state.tree.Opened interface current.tree)
    (fun entry _ interface middle answer next hmiddle hround => ?_)
    hwritten hmiddle⟩
  obtain ⟨_, written, hwritten, hround⟩ := bind_eq_ok_state hround
  obtain ⟨rfl, rfl⟩ := pure_eq_ok_state hround
  exact ⟨rfl, opened_write hmiddle (fun frame hframe => hframe.setStaticValue _ rfl) hwritten⟩

theorem opened_replicateValues {constructors : List String} {value : PUnit}
    (hscope : scope.Within before) (htidy : before.TidyAt scope)
    (hopened : before.Opened {} state.tree)
    (h : (forIn constructors PUnit.unit fun constructor _ => do
      match ← value? scope ⟨path, constructor⟩ with
      | some value =>
        write (before.frames.size :: scope) (·.setStaticValue constructor value)
        pure (.yield ⟨⟩)
      | none => pure (.yield ⟨⟩) : Elab PUnit) state = .ok value after) :
    before.Opened (constructors.foldl ((before.staticView scope).addSeen path) {})
      after.tree := by
  refine foldl_of_forIn (P := fun interface current => before.Opened interface current.tree)
    (fun constructor _ interface middle answer next hmiddle hround => ?_)
    h hopened
  obtain ⟨found, _, hlooked, hround⟩ := bind_eq_ok_state hround
  obtain ⟨hfound, rfl⟩ := look_eq_ok hlooked
  have hframes : ∀ number ∈ scope, middle.tree.frame number = before.frame number :=
    fun number hnumber => hmiddle.frames number (hscope number hnumber)
  rw [← staticView_eq_of_frames hframes, View.addSeen, valueAt?_staticView, hfound]
  cases found with
  | none =>
    obtain ⟨rfl, rfl⟩ := pure_eq_ok_state hround
    exact ⟨rfl, hmiddle⟩
  | some found =>
    obtain ⟨_, written, hwritten, hround⟩ := bind_eq_ok_state hround
    obtain ⟨rfl, rfl⟩ := pure_eq_ok_state hround
    have hsettled := (htidy.of_frames hframes).staticValue? hfound
    exact ⟨rfl, opened_write hmiddle
      (fun frame hframe => hframe.setStaticValue _ hsettled) hwritten⟩

theorem opened_replicateDatatype {name : String} {target : LongName}
    (hscope : scope.Within state.tree) (htidy : state.tree.TidyAt scope)
    (h : replicateDatatype scope name target span state = .ok result after) :
    result = state.tree.frames.size :: scope ∧ ∃ more, (state.tree.staticView scope).added
          (.replicate name target span) = some more ∧
        state.tree.Opened more after.tree := by
  unfold replicateDatatype at h
  obtain ⟨found, _, hlooked, h⟩ := bind_eq_ok_state h
  obtain ⟨hfound, rfl⟩ := look_eq_ok hlooked
  cases found with
  | none => cases h
  | some info =>
    obtain ⟨inner, opened, hinner, h⟩ := bind_eq_ok_state h
    cases hinner
    obtain ⟨_, second, hvalues, h⟩ := bind_eq_ok_state h
    obtain ⟨_, third, hwritten, h⟩ := bind_eq_ok_state h
    obtain ⟨rfl, rfl⟩ := pure_eq_ok_state h
    have hopened := opened_replicateValues hscope htidy (Opened.nested state.tree scope) hvalues
    refine ⟨rfl, _, ?_, opened_write hopened (fun frame hframe =>
      hframe.setStaticType name (htidy.staticType? hfound)) hwritten⟩
    rw [View.added, typeAt?_staticView, hfound]
    rfl

/-! ## Definitions of specified types -/

/-- Both are tidy, and with types forgotten they are the same. -/
structure Redefines (basis result : StaticBasis) : Prop where
  tidy : result.Tidy
  eq : result.interface = basis.interface

theorem redefines_refineAt {f : StaticBasis → Except ElabError StaticBasis}
    (hf : ∀ basis result : StaticBasis, basis.Tidy → f basis = .ok result → Redefines basis result)
    {basis result : StaticBasis} (hbasis : basis.Tidy)
    (h : refineAt span f path basis = .ok result) : Redefines basis result := by
  induction path generalizing basis result with
  | nil => exact hf basis result hbasis h
  | cons name rest ih =>
    unfold refineAt at h
    split at h
    · cases h
    rename_i inner hinner
    obtain ⟨refined, hrefined, h⟩ := Ty.bind_eq_ok h
    cases h
    have hnew := ih (hbasis.structures.get? hinner) hrefined
    refine ⟨tidy_iff.mpr ⟨hbasis.types, hbasis.values,
      hbasis.structures.insert name hnew.tidy, hbasis.signatures⟩, ?_⟩
    rw [interface_eq, interface_eq]
    rw [Table.mapValues_insert_of_get? hbasis.structures.ordered hinner hnew.eq]

theorem redefines_defineType {parameters : List String} {name : LongName} {body : Ty}
    {basis result : StaticBasis} (hbasis : basis.Tidy)
    (h : defineType span parameters name body basis = .ok result) : Redefines basis result := by
  unfold defineType at h
  split at h
  · cases h
  rename_i info hinfo
  split_ifs at h with harity hdefined
  split at h
  · rename_i head arguments htype
    cases h
    have hempty : info.constructors = [] := by simp_all
    refine ⟨tidy_iff.mpr ⟨hbasis.types.insert _ rfl, hbasis.values,
      hbasis.structures, hbasis.signatures⟩, ?_⟩
    rw [interface_eq, interface_eq]
    rw [Table.mapValues_insert_of_get? hbasis.types.ordered hinfo hempty.symm]
  · cases h

/-! ## Signatures -/

mutual

theorem interface_signature {scope : Scope} {written : SigExp} {basis : StaticBasis}
    {state after : ElabState} (hscope : scope.Within state.tree) (htidy : state.tree.TidyAt scope)
    (h : signature scope written state = .ok basis after) :
    basis.Tidy ∧ (state.tree.staticView scope).interface written = some basis.interface := by
  cases written with
  | sig specs span =>
    obtain ⟨mark, opened, hmark, h⟩ := bind_eq_ok_state h
    cases hmark
    obtain ⟨inner, last, hspecs, h⟩ := bind_eq_ok_state h
    obtain ⟨rfl, rfl⟩ := look_eq_ok h
    have hopened := Opened.nested state.tree scope
    have hframes : ∀ number ∈ scope,
        (state.tree.nested scope).2.frame number = state.tree.frame number :=
      fun number hnumber => hopened.frames number (hscope number hnumber)
    have hwithin : Scope.Within (state.tree.nested scope).2 ([state.tree.frames.size] ++ scope) :=
      (Scope.extended_newFrame hscope (refl _) rfl fun _ => rfl).within hscope
    obtain ⟨added, total, hresult, hshows, htotal⟩ := shows_specifications
      hwithin (htidy.of_frames hframes) (.single hopened.shows) hspecs
    obtain ⟨later, hinner, -, -, hchanges⟩ := Scope.changesSince_nested hscope
      (extended_specifications hwithin hspecs)
    obtain rfl : later ++ [state.tree.frames.size] = added := by
      refine append_cancel_right (.trans ?_ hresult)
      rw [hinner, append_assoc]
      rfl
    change last.tree.changesSince inner
      (last.tree.level (state.tree.frames.size :: scope)) = _ at hchanges
    rw [hchanges]
    refine ⟨hshows.tidy_ofFrames, ?_⟩
    rw [hshows.interface_ofFrames, View.interface, ← staticView_eq_of_frames hframes]
    exact htotal
  | name name span =>
    obtain ⟨found, _, hlooked, h⟩ := bind_eq_ok_state h
    obtain ⟨hfound, rfl⟩ := look_eq_ok hlooked
    cases found with
    | none => cases h
    | some found =>
      obtain ⟨rfl, rfl⟩ := pure_eq_ok_state h
      refine ⟨htidy.staticSignature? hfound, ?_⟩
      rw [View.interface]
      simp only [staticView, hfound, Option.map_some]
  | whereType body parameters name definition span =>
    obtain ⟨inner, middle, hinner, h⟩ := bind_eq_ok_state h
    obtain ⟨_, _, -, h⟩ := bind_eq_ok_state h
    obtain ⟨type, _, -, h⟩ := bind_eq_ok_state h
    obtain ⟨hinner, hview⟩ := interface_signature hscope htidy hinner
    cases hrefined : refineAt span (defineType span parameters name type) name.path inner with
    | error error =>
      rw [hrefined] at h
      cases h
    | ok refined =>
      rw [hrefined] at h
      obtain ⟨rfl, rfl⟩ := pure_eq_ok_state h
      have hredefines := redefines_refineAt (fun _ _ => redefines_defineType) hinner hrefined
      rw [View.interface, hview, hredefines.eq]
      exact ⟨hredefines.tidy, rfl⟩

theorem shows_specification {scope result : Scope} {spec : Spec} {state after : ElabState}
    (hscope : scope.Within state.tree) (htidy : state.tree.TidyAt scope)
    (h : specification scope spec state = .ok result after) :
    ∃ number more, result = number :: scope ∧ (after.tree.frame number).Shows more ∧
      (state.tree.staticView scope).added spec = some more := by
  cases spec with
  | val name written span =>
    obtain ⟨type, _, -, h⟩ := bind_eq_ok_state h
    obtain ⟨rfl, hopened⟩ := opened_of_write (fun frame hframe => hframe.setStaticValue name rfl) h
    exact ⟨_, _, rfl, hopened.shows, rfl⟩
  | type parameters name definition equality span =>
    obtain ⟨_, _, -, h⟩ := bind_eq_ok_state h
    obtain ⟨id, _, -, h⟩ := bind_eq_ok_state h
    cases definition with
    | none =>
      obtain ⟨info, _, hinfo, h⟩ := bind_eq_ok_state h
      obtain ⟨rfl, rfl⟩ := pure_eq_ok_state hinfo
      obtain ⟨rfl, hopened⟩ := opened_of_write (fun frame hframe => hframe.setStaticType name rfl) h
      exact ⟨_, _, rfl, hopened.shows, rfl⟩
    | some written =>
      obtain ⟨body, _, -, h⟩ := bind_eq_ok_state h
      obtain ⟨info, _, hinfo, h⟩ := bind_eq_ok_state h
      obtain ⟨rfl, rfl⟩ := pure_eq_ok_state hinfo
      obtain ⟨rfl, hopened⟩ := opened_of_write (fun frame hframe => hframe.setStaticType name rfl) h
      exact ⟨_, _, rfl, hopened.shows, rfl⟩
  | datatypes bindings span =>
    obtain ⟨rfl, hopened⟩ := opened_datatypeBindings h
    exact ⟨_, _, rfl, hopened.shows, rfl⟩
  | replicate name target span =>
    obtain ⟨rfl, more, hmore, hopened⟩ := opened_replicateDatatype hscope htidy h
    exact ⟨_, more, rfl, hopened.shows, hmore⟩
  | exn name argument span =>
    obtain ⟨type, _, -, h⟩ := bind_eq_ok_state h
    obtain ⟨rfl, hopened⟩ := opened_of_write (fun frame hframe => hframe.setStaticValue name rfl) h
    exact ⟨_, _, rfl, hopened.shows, rfl⟩
  | substructure name body span =>
    obtain ⟨basis, _, hbasis, h⟩ := bind_eq_ok_state h
    obtain ⟨hbasis, hview⟩ := interface_signature hscope htidy hbasis
    obtain ⟨rfl, hopened⟩ := opened_of_write
      (fun frame hframe => hframe.setStaticStructure name (hbasis.mapTypes _)) h
    refine ⟨_, _, rfl, hopened.shows, ?_⟩
    rw [View.added, hview, interface_mapTypes]
    rfl
  | included body span =>
    obtain ⟨basis, _, hbasis, h⟩ := bind_eq_ok_state h
    obtain ⟨hbasis, hview⟩ := interface_signature hscope htidy hbasis
    obtain ⟨rfl, hopened⟩ := opened_of_write (fun frame hframe => hframe.installStatics hbasis) h
    refine ⟨_, _, rfl, hopened.shows, ?_⟩
    rw [View.added, hview, empty_override hbasis.ordered_interface]

theorem shows_specifications {outer result : Scope} {frames : List Nat} {specs : List Spec}
    {interface : Interface} {state after : ElabState}
    (hscope : Scope.Within state.tree (frames ++ outer)) (htidy : state.tree.TidyAt outer)
    (hshows : state.tree.Shows frames interface)
    (h : specifications (frames ++ outer) specs state = .ok result after) :
    ∃ added total, result = added ++ outer ∧ after.tree.Shows added total ∧
      (state.tree.staticView outer).specified specs interface = some total := by
  cases specs with
  | nil =>
    obtain ⟨rfl, rfl⟩ := pure_eq_ok_state h
    exact ⟨frames, interface, rfl, hshows, rfl⟩
  | cons spec rest =>
    obtain ⟨inner, middle, hspec, h⟩ := bind_eq_ok_state h
    obtain ⟨number, more, rfl, hframe, hmore⟩ :=
      shows_specification hscope (hshows.tidyAt_append htidy) hspec
    have hwithin := (extended_of_declares hscope
      (Hygiene.declares_specification_any spec) hspec).within hscope
    have hspares := ((grows_of_ensures
      (Hygiene.declares_specification_any spec)).of_ok hspec le_rfl).spares
    have hframes : ∀ number ∈ frames ++ outer, middle.tree.frame number = state.tree.frame number :=
      fun number hnumber => hspares.frame_eq (hscope number hnumber)
    have hinner : ∀ number ∈ frames, middle.tree.frame number = state.tree.frame number :=
      fun number hnumber => hframes number (by simp [hnumber])
    have houter : ∀ number ∈ outer, middle.tree.frame number = state.tree.frame number :=
      fun number hnumber => hframes number (by simp [hnumber])
    obtain ⟨added, total, hresult, hlast, htotal⟩ := shows_specifications
      hwithin (htidy.of_frames houter) ((hshows.of_frames hinner).cons hframe) h
    refine ⟨added, total, hresult, hlast, ?_⟩
    rw [staticView_eq_of_frames houter] at htotal
    rw [View.specified, ← hshows.staticView_append, hmore]
    exact htotal

end

end Elab

end Sml
