import Sml.Proofs.SpecifiedNames
import Sml.Session.Interpret

/-!
# The two views of a signature

Elaboration turns a signature into a basis, evaluation into an interface.
Elaboration lets every specification see those before it, while evaluation
looks for a replicated type outside the signature and takes its constructors
for constructors.  Where this makes no difference, the interface is that of
the basis.
-/

namespace Sml

open Interface Option Table

variable {view : View} {tree : ScopeTree} {scope : Scope}
variable {name : String} {path constructors : List String} {interface : Interface} {outer : View}

namespace View

mutual

/-- Each replicated type is found outside with the same constructors, and
these are in view as constructors. -/
def Alike (view outer : View) : SigExp → Prop
  | .sig specs _ => AlikeFrom view outer specs {}
  | .name _ _ => True
  | .whereType body _ _ _ _ => Alike view outer body

def AlikeAt (view outer : View) : Spec → Prop
  | .replicate _ target _ =>
    view.typeAt? target.path target.name = outer.typeAt? target.path target.name ∧
      ∀ constructors ∈ view.typeAt? target.path target.name, ∀ constructor ∈ constructors,
          view.valueAt? target.path constructor = some .constructor
  | .substructure _ body _ => Alike view outer body
  | .included body _ => Alike view outer body
  | .val _ _ _ | .type _ _ _ _ _ | .datatypes _ _ | .exn _ _ _ => True

def AlikeFrom (view outer : View) : List Spec → Interface → Prop
  | [], _ => True
  | spec :: rest, interface =>
    AlikeAt (view.under interface) outer spec ∧ ∀ more ∈ (view.under interface).added spec,
        AlikeFrom view outer rest (interface.override more)

end

mutual

def decidableAlike (view outer : View) : (written : SigExp) → Decidable (view.Alike outer written)
  | .sig specs _ => decidableAlikeFrom view outer specs {}
  | .name _ _ => .isTrue trivial
  | .whereType body _ _ _ _ => decidableAlike view outer body

def decidableAlikeAt (view outer : View) : (spec : Spec) → Decidable (view.AlikeAt outer spec)
  | .replicate _ target _ => inferInstanceAs (Decidable
    (view.typeAt? target.path target.name = outer.typeAt? target.path target.name ∧
      ∀ constructors ∈ view.typeAt? target.path target.name, ∀ constructor ∈ constructors,
          view.valueAt? target.path constructor = some .constructor))
  | .substructure _ body _ => decidableAlike view outer body
  | .included body _ => decidableAlike view outer body
  | .val _ _ _ | .type _ _ _ _ _ | .datatypes _ _ | .exn _ _ _ => .isTrue trivial

def decidableAlikeFrom (view outer : View) : (specs : List Spec) → (interface : Interface) →
      Decidable (view.AlikeFrom outer specs interface)
  | [], _ => .isTrue trivial
  | spec :: rest, interface =>
    haveI := decidableAlikeAt (view.under interface) outer spec
    haveI := fun more => decidableAlikeFrom view outer rest (interface.override more)
    inferInstanceAs (Decidable (AlikeAt (view.under interface) outer spec ∧
      ∀ more ∈ (view.under interface).added spec,
        AlikeFrom view outer rest (interface.override more)))

end

instance (view outer : View) (written : SigExp) : Decidable (view.Alike outer written) :=
  decidableAlike view outer written

theorem replica_eq_addType
    (h : ∀ constructor ∈ constructors, view.valueAt? path constructor = some .constructor) :
    view.replica name path constructors = addType name constructors {} := by
  have hfold : constructors.foldl (view.addSeen path) {} =
      constructors.foldl (fun interface constructor => interface.addValue constructor .constructor)
        ({} : Interface) := by
    refine List.foldl_ext _ _ _ fun interface constructor hconstructor => ?_
    rw [addSeen, h constructor hconstructor]
  rw [replica, hfold, addType]

theorem ordered_foldl_addSeen (view : View) (path names : List String) (h : interface.Ordered) :
    (names.foldl (view.addSeen path) interface).Ordered := by
  refine List.foldlRecOn names _ h fun interface h name _ => ?_
  rw [addSeen]
  split
  · exact h.addValue _ _
  · exact h

theorem get?_addSeen (view : View) (path : List String) (interface : Interface)
    (first name : String) :
    get? (view.addSeen path interface first).values name =
      if first = name then
        (view.valueAt? path name).or (get? interface.values name)
      else get? interface.values name := by
  rw [addSeen]
  split
  · rename_i status hstatus
    rw [addValue, get?_insert]
    split
    · rename_i hname
      rw [← hname, hstatus, some_or]
    · rfl
  · rename_i hstatus
    split
    · rename_i hname
      rw [← hname, hstatus, none_or]
    · rfl

theorem get?_foldl_addSeen (view : View) (path names : List String)
    (interface : Interface) (name : String) :
    get? (names.foldl (view.addSeen path) interface).values name =
      if name ∈ names then
        (view.valueAt? path name).or (get? interface.values name)
      else get? interface.values name := by
  induction names generalizing interface with
  | nil => simp
  | cons first names ih =>
    rw [List.foldl_cons, ih, get?_addSeen]
    by_cases hfirst : first = name
    · subst hfirst
      cases view.valueAt? path first <;> simp
    · simp [hfirst, Ne.symm hfirst]

theorem ordered_replica (view : View) (name : String) (path constructors : List String) :
    (view.replica name path constructors).Ordered := by
  have hordered := view.ordered_foldl_addSeen path constructors ordered_empty
  exact ⟨ordered_insert hordered.types _ _, hordered.values, hordered.structures⟩

theorem seen_of_replica_eq {others : List String}
    (h : view.replica name path constructors = addType name others {}) :
    constructors = others ∧ ∀ constructor ∈ constructors,
      view.valueAt? path constructor = some .constructor := by
  rw [replica, Interface.addType_eq, Interface.mk.injEq] at h
  obtain ⟨htypes, hvalues, -⟩ := h
  have hsame : constructors = others := by
    have hget := congrArg (get? · name) htypes
    simpa [get?_insert] using hget
  refine ⟨hsame, fun constructor hmem => ?_⟩
  have hget := congrArg (get? · constructor) hvalues
  simpa [get?_foldl_addSeen, get?_insertAll, hmem, ← hsame] using hget

end View

/-- Evaluation finds the types that are seen outside, and the signatures. -/
structure ScopeTree.Finds (tree : ScopeTree) (scope : Scope) (view outer : View) : Prop where
  types : ∀ name : LongName, outer.typeAt? name.path name.name =
    (tree.dynamicType? scope name).map DynamicType.constructors
  signatures : view.signature? = tree.dynamicSignature? scope

namespace ScopeTree

theorem Finds.under (h : tree.Finds scope view outer) (interface : Interface) :
    tree.Finds scope (view.under interface) outer :=
  ⟨h.types, h.signatures⟩

theorem Agrees.finds (h : tree.Agrees scope) :
    tree.Finds scope (tree.staticView scope) (tree.staticView scope) :=
  ⟨h.typeAt?, h.signatures⟩

end ScopeTree

namespace Interface

mutual

theorem ofSignature_eq_ok {outer view : View} {written : SigExp}
    {interface : Interface} (hfinds : tree.Finds scope view outer)
    (halike : view.Alike outer written) (h : view.interface written = some interface) :
    ofSignature tree scope written = .ok interface := by
  cases written with
  | sig specs span =>
    rw [ofSignature]
    exact addSpecs_eq_ok hfinds ordered_empty halike h
  | name name span =>
    rw [View.interface, hfinds.signatures] at h
    rw [ofSignature, h]
  | whereType body parameters name definition span =>
    rw [ofSignature]
    exact ofSignature_eq_ok hfinds halike h

theorem addSpec_eq_ok {outer view : View} {spec : Spec}
    {interface more : Interface} (hfinds : tree.Finds scope view outer)
    (hordered : interface.Ordered) (halike : view.AlikeAt outer spec)
    (h : view.added spec = some more) :
    addSpec tree scope spec interface = .ok (interface.override more) := by
  cases spec with
  | val | type | exn =>
    cases h
    rfl
  | datatypes bindings span =>
    cases h
    rw [addSpec, override_addDatatypes hordered ordered_empty, override_empty]
    rfl
  | replicate name target span =>
    obtain ⟨hsame, hseen⟩ := halike
    obtain ⟨constructors, hconstructors, rfl⟩ := map_eq_some_iff.mp h
    rw [hsame, hfinds.types] at hconstructors
    obtain ⟨type, htype, rfl⟩ := map_eq_some_iff.mp hconstructors
    rw [addSpec, htype, View.replica_eq_addType (hseen _ ?_),
      override_addType hordered ordered_empty, override_empty]
    rw [hsame, hfinds.types, htype]
    rfl
  | substructure name body span =>
    obtain ⟨inner, hinner, rfl⟩ := map_eq_some_iff.mp h
    rw [addSpec, ofSignature_eq_ok hfinds halike hinner]
    rfl
  | included body span =>
    rw [addSpec, ofSignature_eq_ok hfinds halike h]
    rfl

theorem addSpecs_eq_ok {outer view : View} {specs : List Spec}
    {interface total : Interface} (hfinds : tree.Finds scope view outer)
    (hordered : interface.Ordered) (halike : view.AlikeFrom outer specs interface)
    (h : view.specified specs interface = some total) :
    addSpecs tree scope specs interface = .ok total := by
  cases specs with
  | nil =>
    cases h
    rw [addSpecs]
  | cons spec rest =>
    obtain ⟨more, hmore, hrest⟩ := bind_eq_some_iff.mp h
    rw [addSpecs, addSpec_eq_ok (hfinds.under interface) hordered halike.1 hmore]
    exact addSpecs_eq_ok hfinds (hordered.override more) (halike.2 more hmore) hrest

end

theorem alike_of_replicate {target : LongName}
    {span whole : Span} (hfinds : tree.Finds scope view outer)
    (hview : view.interface (.sig [.replicate name target span] whole) = some interface)
    (h : ofSignature tree scope (.sig [.replicate name target span] whole) = .ok interface) :
    view.Alike outer (.sig [.replicate name target span] whole) := by
  obtain ⟨more, hmore, hrest⟩ := bind_eq_some_iff.mp hview
  cases hrest
  obtain ⟨constructors, hconstructors, rfl⟩ := map_eq_some_iff.mp hmore
  rw [empty_override (View.ordered_replica _ _ _ _)] at h
  rw [ofSignature, addSpecs] at h
  obtain ⟨added, hadded, h⟩ := Ty.bind_eq_ok h
  cases h
  rw [addSpec] at hadded
  split at hadded
  · rename_i type htype
    obtain ⟨rfl, hseen⟩ := View.seen_of_replica_eq (Except.ok.inj hadded).symm
    refine ⟨⟨?_, ?_⟩, fun _ _ => trivial⟩
    · rw [hconstructors, hfinds.types, htype]
      rfl
    · rintro found hfound
      rw [hconstructors] at hfound
      cases hfound
      exact hseen
  · cases hadded

end Interface

namespace Elab

/-- A signature that is elaborated stands for the names that are read off it,
every specification having those before it in view.  Evaluation gives the same
names, if it finds the replicated types as elaboration sees them; for a lone
replication, only then. -/
theorem ofSignature_eq_interface {scope : Scope} {written : SigExp} {basis : StaticBasis}
    {state after : ElabState} (hscope : scope.Within state.tree) (htidy : state.tree.TidyAt scope)
    (hagrees : state.tree.Agrees scope) (h : signature scope written state = .ok basis after) :
    (state.tree.staticView scope).interface written = some basis.interface ∧
      ((state.tree.staticView scope).Alike (state.tree.staticView scope) written →
        ofSignature state.tree scope written = .ok basis.interface) ∧
      ∀ name target span whole, written = .sig [.replicate name target span] whole →
        ofSignature state.tree scope written = .ok basis.interface →
        (state.tree.staticView scope).Alike (state.tree.staticView scope)
          written := by
  obtain ⟨-, hview⟩ := interface_signature hscope htidy h
  refine ⟨hview, fun halike =>
    ofSignature_eq_ok hagrees.finds halike hview, ?_⟩
  rintro name target span whole rfl hsame
  exact alike_of_replicate hagrees.finds hview hsame

end Elab

/-! ## Signatures over one frame -/

namespace ScopeTree

theorem agrees_root {frame : Frame} (htypes : mapValues TypeInfo.constructors frame.statics.types =
      mapValues DynamicType.constructors frame.dynamics.types)
    (hstructures : mapValues StaticBasis.interface frame.statics.structures =
        mapValues DynamicBasis.interface frame.dynamics.structures)
    (hsignatures : mapValues StaticBasis.interface frame.statics.signatures =
        frame.dynamics.signatures) : Agrees { frames := #[frame] } .root := by
  have hfind : ∀ {α : Type} (find : Frame → Option α),
      ScopeTree.find? { frames := #[frame] } 0 find .root = find frame := by
    intro α find
    rw [find?_zero]
    cases h : find frame <;> simp [Scope.root, ScopeTree.frame, h]
  refine ⟨funext fun name => ?_, funext fun name => ?_, funext fun name => ?_⟩
  · have hname := congrArg (get? · name) htypes
    simp only [get?_mapValues] at hname
    simp only [staticView, staticType?, dynamicView, dynamicType?,
      dynamicTypeWhere?, LongName.isSimple, LongName.simple,
      List.isEmpty_nil, ↓reduceIte, hfind, hname]
    cases get? frame.dynamics.types name <;> rfl
  · have hname := congrArg (get? · name) hstructures
    simp only [get?_mapValues] at hname
    simp only [staticView, dynamicView, staticStructure?, dynamicStructure?,
      hfind, bind_eq_bind, bind_fun_some, hname]
  · have hname := congrArg (get? · name) hsignatures
    simp only [get?_mapValues] at hname
    simp only [staticView, dynamicView, staticSignature?, dynamicSignature?, hfind, hname]

end ScopeTree

namespace Elab

def shelf : Frame where
  statics :=
    { types := [("t",
        { type := .con { name := "t" } [], constructors := ["A", "B"]
          arity := 0, equality := true })]
      values := [("A", { type := .con { name := "t" } [], status := .constructor }),
        ("B", { type := .con { name := "t" } [], status := .constructor })]
      structures := [("M",
        { types := [("s",
            { type := .con { name := "s" } [], constructors := ["C"]
              arity := 0, equality := true })]
          values := [
            ("C", { type := .con { name := "s" } [], status := .constructor })] })]
      signatures := [("X",
        { types := [("v",
            { type := .con { name := "v" } [], arity := 0, equality := false })]
          values := [("x", { type := .con { name := "v" } [] })] })] }
  dynamics :=
    { types := [("t", { constructors := ["A", "B"] })]
      structures := [("M",
        { types := [("s", { constructors := ["C"] })]
          values := [
            ("C", { value := .constructed "C" none, status := .constructor })] })]
      signatures := [("X", { types := [("v", [])], values := [("x", .value)] })] }

def shelfSignature : SigExp := .sig [.replicate "u" (.simple "t") {},
    .replicate "w" ⟨["M"], "s"⟩ {},
    .substructure "N" (.name "X" {}) {},
    .included (.whereType (.name "X" {}) [] (.simple "v") (.con (.simple "u") [] {}) {}) {},
    .datatypes [⟨[], "p", [⟨"P", none, {}⟩, ⟨"Q", some (.con (.simple "p") [] {}), {}⟩], {}⟩] {},
    .type [] "q" none true {},
    .exn "E" none {},
    .val "y" (.arrow (.con (.simple "v") [] {}) (.con (.simple "q") [] {}) {}) {}]
    {}

theorem ofSignature_eq_interface_shelf : ∃ basis after,
      signature .root shelfSignature { tree := { frames := #[shelf] } } = .ok basis after ∧
      ofSignature { frames := #[shelf] } .root shelfSignature = .ok basis.interface := by
  obtain ⟨basis, after, hbasis⟩ : ∃ basis after,
      signature .root shelfSignature { tree := { frames := #[shelf] } } =
        .ok basis after := exists_of_succeeds (by decide +kernel)
  obtain ⟨-, hsame, -⟩ := ofSignature_eq_interface (by decide)
    (by decide +kernel) (ScopeTree.agrees_root rfl rfl rfl) hbasis
  exact ⟨basis, after, hbasis, hsame (by decide +kernel)⟩

def hiddenConstructor : Frame where
  statics :=
    { types := [("t",
        { type := .con { name := "t" } [], constructors := ["A"]
          arity := 0, equality := true })]
      values := [("A", { type := .exn, status := .exception })] }
  dynamics := { types := [("t", { constructors := ["A"] })] }

/-- Evaluation does not find a type that is specified before its replication,
and takes for a constructor what elaboration sees as an exception. -/
theorem ofSignature_ne_interface : (Scope.root.Within {} ∧ ScopeTree.TidyAt {} .root ∧
      ScopeTree.Agrees {} .root ∧
      ∃ basis after error, signature .root (.sig [.datatypes [⟨[], "t", [⟨"A", none, {}⟩], {}⟩] {},
            .replicate "u" (.simple "t") {}] {}) { tree := {} } =
            .ok basis after ∧
        ofSignature {} .root (.sig [.datatypes [⟨[], "t", [⟨"A", none, {}⟩], {}⟩] {},
            .replicate "u" (.simple "t") {}] {}) = .error error) ∧
    (Scope.root.Within { frames := #[hiddenConstructor] } ∧
      ScopeTree.TidyAt { frames := #[hiddenConstructor] } .root ∧
      ScopeTree.Agrees { frames := #[hiddenConstructor] } .root ∧
      ∃ basis after interface, signature .root (.sig [.replicate "u" (.simple "t") {}] {})
          { tree := { frames := #[hiddenConstructor] } } = .ok basis after ∧
        ofSignature { frames := #[hiddenConstructor] } .root
          (.sig [.replicate "u" (.simple "t") {}] {}) = .ok interface ∧
        basis.interface.values = [("A", .exception)] ∧
        interface.values = [("A", .constructor)]) :=
  ⟨⟨by decide, by decide +kernel, ScopeTree.agrees_root rfl rfl rfl,
      _, _, _, rfl, rfl⟩,
    ⟨by decide, by decide +kernel, ScopeTree.agrees_root rfl rfl rfl,
      _, _, _, rfl, rfl, rfl, rfl⟩⟩

/-- The signature is elaborated, and its evaluation ends with a fault. -/
theorem interpret_replicated : (match (interpret 9 {}
        "signature S = sig datatype t = A datatype u = datatype t end" .basic).1 with
    | .error (.evaluation ⟨.undefined .type name, _⟩) => name == "t"
    | _ => false) = true := by
  decide +kernel

end Elab

end Sml
