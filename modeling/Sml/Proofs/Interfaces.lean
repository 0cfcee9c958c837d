import Sml.Evaluation.Interface
import Sml.Proofs.ScopeGrowth

/-!
# What a basis shows

Forgetting types and values, a static and a dynamic basis both are interfaces:
names of types with their constructors, names of values with their status, and
structures.  The interface of a signature can be read off the signature and
what is in view around it, if every specification sees those before it.
-/

namespace Sml

open DynamicBasis Interface List StaticBasis Table DynamicType

variable {α : Type} {name : String} {bindings : List DatBind}
variable {first second table : Table α}

theorem Table.override_insert (hfirst : Table.Ordered first) (hsecond : Table.Ordered second)
    (name : String) (value : α) :
    override first (insert second name value) =
      insert (override first second) name value := by
  have hinsert := ordered_insert hsecond name value
  refine eq_of_get? (ordered_override hfirst _)
    (ordered_insert (ordered_override hfirst _) _ _) fun other => ?_
  rw [get?_override _ hinsert, get?_insert, get?_insert, get?_override _ hsecond]
  split <;> rfl

theorem Table.override_insertAll (hfirst : Table.Ordered first) (hsecond : Table.Ordered second)
    (names : List String) (value : α) :
    override first (insertAll second names value) =
      insertAll (override first second) names value := by
  induction names generalizing second with
  | nil => rfl
  | cons name names ih =>
    refine (ih (ordered_insert hsecond name value)).trans ?_
    rw [override_insert hfirst hsecond]
    rfl

theorem Table.insert_of_get? (htable : Table.Ordered table) {value : α}
    (h : get? table name = some value) : insert table name value = table := by
  refine eq_of_get? (ordered_insert htable _ _) htable fun other => ?_
  rw [get?_insert]
  split
  · rename_i hname
    rw [← hname, h]
  · rfl

theorem Table.mapValues_insert_of_get? {β : Type} (htable : Table.Ordered table) {old new : α}
    {f : α → β} (h : get? table name = some old) (hf : f new = f old) :
    mapValues f (insert table name new) = mapValues f table := by
  rw [mapValues_insert, hf]
  refine insert_of_get? ((ordered_mapValues _ _).mpr htable) ?_
  rw [get?_mapValues, h, Option.map_some]

namespace Interface

structure Ordered (interface : Interface) : Prop where
  types : Table.Ordered interface.types
  values : Table.Ordered interface.values
  structures : Table.Ordered interface.structures

theorem ordered_empty : Ordered {} := ⟨ordered_nil, ordered_nil, ordered_nil⟩

variable {first second : Interface}

@[simp] theorem override_empty (interface : Interface) : interface.override {} = interface := by
  obtain ⟨types, values, structures⟩ := interface
  rfl

theorem empty_override {interface : Interface} (h : interface.Ordered) :
    override {} interface = interface := by
  have hnone : ∀ {α : Type} {table : Table α}, Table.Ordered table →
      Table.override [] table = table := by
    intro α table htable
    refine eq_of_get? (ordered_override ordered_nil _) htable fun name => ?_
    rw [get?_override _ htable, get?_nil, Option.or_none]
  obtain ⟨types, values, structures⟩ := interface
  simp only [override, hnone h.types, hnone h.values, hnone h.structures]

theorem Ordered.override (h : first.Ordered) (second : Interface) :
    (first.override second).Ordered :=
  ⟨ordered_override h.types _, ordered_override h.values _, ordered_override h.structures _⟩

theorem Ordered.addValue (h : first.Ordered) (name : String)
    (status : IdStatus) : (first.addValue name status).Ordered :=
  ⟨h.types, ordered_insert h.values _ _, h.structures⟩

theorem foldl_addValue (names : List String) (status : IdStatus) (interface : Interface) :
    names.foldl (fun interface name => interface.addValue name status) interface =
      { interface with
        values := insertAll interface.values names status } := by
  induction names generalizing interface with
  | nil =>
    obtain ⟨types, values, structures⟩ := interface
    rfl
  | cons name names ih => exact ih _

theorem addType_eq (name : String) (constructors : List String) (interface : Interface) :
    interface.addType name constructors =
      { types := insert interface.types name constructors
        values := insertAll interface.values constructors .constructor
        structures := interface.structures } := by
  rw [addType, foldl_addValue]

theorem Ordered.addType (h : first.Ordered) (name : String)
    (constructors : List String) : (first.addType name constructors).Ordered := by
  rw [addType_eq]
  exact ⟨ordered_insert h.types _ _, ordered_insertAll h.values _ _, h.structures⟩

theorem override_addType (hfirst : first.Ordered) (hsecond : second.Ordered)
    (name : String) (constructors : List String) :
    first.override (second.addType name constructors) =
      (first.override second).addType name constructors := by
  simp only [addType_eq, override, override_insert hfirst.types hsecond.types,
    override_insertAll hfirst.values hsecond.values]

def addDatatypes (bindings : List DatBind) (interface : Interface) : Interface := bindings.foldl
    (fun interface binding =>
      interface.addType binding.name binding.constructorNames) interface

theorem override_addDatatypes (hfirst : first.Ordered)
    (hsecond : second.Ordered) (bindings : List DatBind) :
    first.override (second.addDatatypes bindings) =
      (first.override second).addDatatypes bindings := by
  induction bindings generalizing second with
  | nil => rfl
  | cons binding bindings ih =>
    refine (ih (hsecond.addType _ _)).trans ?_
    rw [override_addType hfirst hsecond]
    rfl

def groupTypes (bindings : List DatBind) (types : Table (List String)) : Table (List String) :=
  bindings.foldl (fun types binding =>
      insert types binding.name binding.constructorNames) types

theorem get?_groupTypes_of_not_mem (h : name ∉ bindings.map DatBind.name)
    (types : Table (List String)) :
    get? (groupTypes bindings types) name = get? types name := by
  induction bindings generalizing types with
  | nil => rfl
  | cons binding bindings ih =>
    rw [map_cons, mem_cons, not_or] at h
    refine (ih h.2 _).trans ?_
    rw [get?_insert, if_neg (Ne.symm h.1)]

theorem get?_groupTypes_of_mem (hnodup : (bindings.map DatBind.name).Nodup) {binding : DatBind}
    (h : binding ∈ bindings) (types : Table (List String)) :
    get? (groupTypes bindings types) binding.name = some binding.constructorNames := by
  induction bindings generalizing types with
  | nil => cases h
  | cons first bindings ih =>
    rw [map_cons, nodup_cons] at hnodup
    rcases mem_cons.mp h with rfl | h
    · refine (get?_groupTypes_of_not_mem hnodup.1 _).trans ?_
      rw [get?_insert, if_pos rfl]
    · exact ih hnodup.2 h _

theorem addDatatypes_eq (bindings : List DatBind) (interface : Interface) :
    interface.addDatatypes bindings =
      { types := groupTypes bindings interface.types
        values := insertAll interface.values
          (bindings.flatMap DatBind.constructorNames) .constructor
        structures := interface.structures } := by
  induction bindings generalizing interface with
  | nil =>
    obtain ⟨types, values, structures⟩ := interface
    rfl
  | cons binding bindings ih =>
    refine (ih (interface.addType binding.name binding.constructorNames)).trans ?_
    simp only [addType_eq, groupTypes, insertAll, flatMap_cons, foldl_append, foldl_cons]

def structureAt? : Interface → List String → Option Interface
  | interface, [] => some interface
  | interface, first :: rest =>
    (get? interface.structures first).bind fun inner =>
      inner.structureAt? rest

end Interface

/-! ## The interface of a basis -/

namespace StaticBasis

mutual

def interface : StaticBasis → Interface
  | ⟨types, values, structures, _, _⟩ =>
    { types := mapValues TypeInfo.constructors types
      values := mapValues StaticValue.status values
      structures := interfaces structures }

def interfaces : List (String × StaticBasis) → List (String × Interface)
  | [] => []
  | (name, basis) :: rest => (name, interface basis) :: interfaces rest

end

theorem interfaces_eq (structures : List (String × StaticBasis)) :
    interfaces structures = mapValues interface structures := by
  induction structures with
  | nil => rfl
  | cons entry rest ih =>
    rw [interfaces, ih]
    rfl

theorem interface_eq (basis : StaticBasis) : basis.interface =
      { types := mapValues TypeInfo.constructors basis.types
        values := mapValues StaticValue.status basis.values
        structures := mapValues interface basis.structures } := by
  obtain ⟨types, values, structures, signatures, functors⟩ := basis
  rw [interface, interfaces_eq]

theorem map_interface_findIn (structures : List (String × StaticBasis))
    (first : String) (rest : List String) :
    (findIn structures (first :: rest)).map interface =
      ((get? structures first).map interface).bind (·.structureAt? rest) := by
  induction rest generalizing structures first with
  | nil => simp [findIn, structureAt?]
  | cons second rest ih =>
    cases h : get? structures first with
    | none => simp [findIn, h]
    | some inner => simp [findIn, h, ih, structureAt?, interface_eq inner, get?_mapValues]

end StaticBasis

namespace DynamicBasis

mutual

def interface : DynamicBasis → Interface
  | ⟨types, values, structures, _, _⟩ =>
    { types := mapValues constructors types
      values := mapValues DynamicValue.status values
      structures := interfaces structures }

def interfaces : List (String × DynamicBasis) → List (String × Interface)
  | [] => []
  | (name, basis) :: rest => (name, interface basis) :: interfaces rest

end

theorem interfaces_eq (structures : List (String × DynamicBasis)) :
    interfaces structures = mapValues interface structures := by
  induction structures with
  | nil => rfl
  | cons entry rest ih =>
    rw [interfaces, ih]
    rfl

theorem interface_eq (basis : DynamicBasis) : basis.interface =
      { types := mapValues constructors basis.types
        values := mapValues DynamicValue.status basis.values
        structures := mapValues interface basis.structures } := by
  obtain ⟨types, values, structures, signatures, functors⟩ := basis
  rw [interface, interfaces_eq]

theorem map_interface_findIn (structures : List (String × DynamicBasis))
    (first : String) (rest : List String) :
    (findIn structures (first :: rest)).map interface =
      ((get? structures first).map interface).bind (·.structureAt? rest) := by
  induction rest generalizing structures first with
  | nil => simp [findIn, structureAt?]
  | cons second rest ih =>
    cases h : get? structures first with
    | none => simp [findIn, h]
    | some inner => simp [findIn, h, ih, structureAt?, interface_eq inner, get?_mapValues]

end DynamicBasis

/-! ## Views -/

structure View where
  type? : String → Option (List String)
  value? : String → Option IdStatus
  structure? : String → Option Interface
  signature? : String → Option Interface

namespace View

def under (view : View) (interface : Interface) : View where
  type? name := (get? interface.types name).or (view.type? name)
  value? name := (get? interface.values name).or (view.value? name)
  structure? name := (get? interface.structures name).or (view.structure? name)
  signature? := view.signature?

def structureAt? (view : View) : List String → Option Interface
  | [] => none
  | first :: rest => (view.structure? first).bind (·.structureAt? rest)

def typeAt? (view : View) (path : List String) (name : String) : Option (List String) :=
  match path with
  | [] => view.type? name
  | _ => (view.structureAt? path).bind fun inner => get? inner.types name

def valueAt? (view : View) (path : List String) (name : String) : Option IdStatus :=
  match path with
  | [] => view.value? name
  | _ => (view.structureAt? path).bind fun inner => get? inner.values name

def addSeen (view : View) (path : List String) (interface : Interface)
    (name : String) : Interface :=
  match view.valueAt? path name with
  | some status => interface.addValue name status
  | none => interface

/-- A type with these constructors, and what is in view of their names. -/
def replica (view : View) (name : String) (path : List String)
    (constructors : List String) : Interface :=
  let interface := constructors.foldl (view.addSeen path) {}
  { interface with types := insert interface.types name constructors }

mutual

/-- The interface of a signature.  Every specification has those before it in
view. -/
def interface (view : View) : SigExp → Option Interface
  | .sig specs _ => view.specified specs {}
  | .name name _ => view.signature? name
  | .whereType body _ _ _ _ => view.interface body

def added (view : View) : Spec → Option Interface
  | .val name _ _ => some { values := [(name, .value)] }
  | .type _ name _ _ _ => some { types := [(name, [])] }
  | .datatypes bindings _ => some (.addDatatypes bindings {})
  | .replicate name target _ =>
    (view.typeAt? target.path target.name).map (view.replica name target.path)
  | .exn name _ _ => some { values := [(name, .exception)] }
  | .substructure name body _ =>
    (view.interface body).map fun inner => { structures := [(name, inner)] }
  | .included body _ => view.interface body

def specified (view : View) : List Spec → Interface → Option Interface
  | [], interface => some interface
  | spec :: rest, interface => do
    let more ← (view.under interface).added spec
    view.specified rest (interface.override more)

end

end View

namespace ScopeTree

variable (tree : ScopeTree) (scope : Scope)

def staticView : View where
  type? name := (tree.staticType? scope [] name).map TypeInfo.constructors
  value? name := (tree.staticValue? scope [] name).map StaticValue.status
  structure? name := (tree.staticStructure? scope [name]).map StaticBasis.interface
  signature? name := (tree.staticSignature? scope name).map StaticBasis.interface

def dynamicView : View where
  type? name := (tree.dynamicType? scope (.simple name)).map constructors
  value? name := (tree.dynamicValue? scope [] name).map DynamicValue.status
  structure? name := (tree.dynamicStructure? scope [name]).map DynamicBasis.interface
  signature? := tree.dynamicSignature? scope

/-- Elaboration and evaluation see the same types, structures and
signatures. -/
structure Agrees : Prop where
  types : (tree.staticView scope).type? = (tree.dynamicView scope).type?
  structures : (tree.staticView scope).structure? = (tree.dynamicView scope).structure?
  signatures : (tree.staticView scope).signature? = (tree.dynamicView scope).signature?

variable {tree scope}

theorem structureAt?_staticView (path : List String) : (tree.staticView scope).structureAt? path =
      (tree.staticStructure? scope path).map StaticBasis.interface := by
  cases path with
  | nil => rfl
  | cons first rest =>
    simp only [View.structureAt?, staticView, staticStructure?]
    cases tree.find? 0 (fun frame => get? frame.statics.structures first) scope with
    | none => rfl
    | some found =>
      cases rest with
      | nil => rfl
      | cons second rest =>
        refine .trans ?_ (map_interface_findIn found.structures _ _).symm
        simp [structureAt?, interface_eq found, get?_mapValues]

theorem typeAt?_staticView (path : List String) (name : String) :
    (tree.staticView scope).typeAt? path name =
      (tree.staticType? scope path name).map TypeInfo.constructors := by
  cases path with
  | nil => rfl
  | cons first rest =>
    simp only [View.typeAt?, structureAt?_staticView, staticType?]
    cases tree.staticStructure? scope (first :: rest) with
    | none => rfl
    | some found => simp [interface_eq found, get?_mapValues]

theorem valueAt?_staticView (path : List String) (name : String) :
    (tree.staticView scope).valueAt? path name =
      (tree.staticValue? scope path name).map StaticValue.status := by
  cases path with
  | nil => rfl
  | cons first rest =>
    simp only [View.valueAt?, structureAt?_staticView, staticValue?]
    cases tree.staticStructure? scope (first :: rest) with
    | none => rfl
    | some found => simp [interface_eq found, get?_mapValues]

theorem structureAt?_dynamicView (path : List String) : (tree.dynamicView scope).structureAt? path =
      (tree.dynamicStructure? scope path).map DynamicBasis.interface := by
  cases path with
  | nil => rfl
  | cons first rest =>
    simp only [View.structureAt?, dynamicView, dynamicStructure?]
    cases tree.find? 0 (fun frame => get? frame.dynamics.structures first) scope with
    | none => rfl
    | some found =>
      cases rest with
      | nil => rfl
      | cons second rest =>
        refine .trans ?_ (map_interface_findIn found.structures _ _).symm
        simp [structureAt?, interface_eq found, get?_mapValues]

theorem typeAt?_dynamicView (name : LongName) :
    (tree.dynamicView scope).typeAt? name.path name.name =
      (tree.dynamicType? scope name).map constructors := by
  obtain ⟨path, name⟩ := name
  cases path with
  | nil => rfl
  | cons first rest =>
    simp only [View.typeAt?, structureAt?_dynamicView, dynamicType?]
    cases tree.dynamicStructure? scope (first :: rest) with
    | none => rfl
    | some found => simp [interface_eq found, get?_mapValues, LongName.isSimple]

theorem Agrees.typeAt? (h : tree.Agrees scope) (name : LongName) :
    (tree.staticView scope).typeAt? name.path name.name =
      (tree.dynamicType? scope name).map constructors := by
  rw [← typeAt?_dynamicView]
  obtain ⟨path, name⟩ := name
  cases path with
  | nil => exact congrFun h.types name
  | cons first rest => simp only [View.typeAt?, View.structureAt?, h.structures]

end ScopeTree

end Sml
