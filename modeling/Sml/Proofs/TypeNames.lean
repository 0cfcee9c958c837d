import Sml.Proofs.Shape
import Sml.Static.Basis
import Sml.Static.Store

/-!
# The names of variables in types

All variables that a type mentions count here, those of binders and of domains
too.  What is put together from types with names of some kind has names of
that kind.
-/

namespace Sml

open List Table Ty

variable {P' : String → Prop} {name : String} {domain : List Ty}
variable {type : Ty} {first second : List Ty} {domains : Table (List Ty)}
  {structures : List (String × StaticBasis)} {motive : StaticBasis → Prop}

namespace Ty

mutual

def names : Ty → List String
  | .any => []
  | .var name domain _ => name :: namesOfList domain
  | .bind name domain _ body => name :: (namesOfList domain ++ body.names)
  | .record fields _ => namesOfFields fields
  | .arrow parameter result => parameter.names ++ result.names
  | .con _ arguments => namesOfList arguments
  | .tuple elements => namesOfList elements

def namesOfList : List Ty → List String
  | [] => []
  | type :: rest => type.names ++ namesOfList rest

def namesOfFields : List (String × Ty) → List String
  | [] => []
  | (_, type) :: rest => type.names ++ namesOfFields rest

end

def AllNames (P : String → Prop) (type : Ty) : Prop := ∀ name ∈ type.names, P name

variable {P : String → Prop}

theorem AllNames.imp (h : type.AllNames P) (hP : ∀ name, P name → P' name) : type.AllNames P' :=
  fun name hname => hP name (h name hname)

section Names

attribute [local simp] names namesOfList namesOfFields

private theorem forall_namesOfList {types : List Ty} : (∀ name ∈ namesOfList types, P name) ↔
      ∀ type ∈ types, type.AllNames P := by
  induction types with
  | nil => simp
  | cons type types ih =>
    simp only [namesOfList, forall_mem_append, forall_mem_cons, ih]
    rfl

private theorem forall_namesOfFields {fields : List (String × Ty)} :
    (∀ name ∈ namesOfFields fields, P name) ↔ ∀ field ∈ fields, field.2.AllNames P := by
  induction fields with
  | nil => simp
  | cons field fields ih =>
    simp only [namesOfFields, forall_mem_append, forall_mem_cons, ih]
    rfl

end Names

@[simp] theorem allNames_any : any.AllNames P := by
  simp [AllNames, names]

@[simp] theorem allNames_var {free : Bool} : (var name domain free).AllNames P ↔
      P name ∧ ∀ type ∈ domain, type.AllNames P := by
  simp only [AllNames, names, forall_mem_cons, forall_namesOfList]

@[simp] theorem allNames_plain : (plain name).AllNames P ↔ P name := by
  simp [plain]

@[simp] theorem allNames_bind {free : Bool} {body : Ty} : (bind name domain free body).AllNames P ↔
      P name ∧ (∀ type ∈ domain, type.AllNames P) ∧ body.AllNames P := by
  simp only [AllNames, names, forall_mem_cons, forall_mem_append, forall_namesOfList]

@[simp] theorem allNames_record {fields : List (String × Ty)} {complete : Bool} :
    (record fields complete).AllNames P ↔ ∀ field ∈ fields, field.2.AllNames P := by
  simp only [AllNames, names, forall_namesOfFields]

@[simp] theorem allNames_arrow {parameter result : Ty} : (arrow parameter result).AllNames P ↔
      parameter.AllNames P ∧ result.AllNames P := by
  simp only [AllNames, names, forall_mem_append]

@[simp] theorem allNames_con {head : TyCon} {arguments : List Ty} :
    (con head arguments).AllNames P ↔ ∀ argument ∈ arguments, argument.AllNames P := by
  simp only [AllNames, names, forall_namesOfList]

@[simp] theorem allNames_tuple {elements : List Ty} : (tuple elements).AllNames P ↔
      ∀ element ∈ elements, element.AllNames P := by
  simp only [AllNames, names, forall_namesOfList]

@[simp] theorem allNames_constant (name : String) : (constant name).AllNames P := by
  simp [constant]

@[simp] theorem allNames_unit : unit.AllNames P := by
  simp [unit]

@[simp] theorem allNames_list {element : Ty} : (list element).AllNames P ↔ element.AllNames P := by
  simp [list]

/-! ## Rebuilding a type -/

/-- What is made of types with names of some kind is of a kind too. -/
structure Fold.Keeps {β : Type} (P : String → Prop) (K : β → Prop) (f : Fold β) : Prop where
  any : K f.any
  var : ∀ {name domain free}, (Ty.var name domain free).AllNames P → K (f.var name domain free)
  bind : ∀ {name domain free body made},
    (Ty.bind name domain free body).AllNames P → K made → K (f.bind name domain free body made)
  record : ∀ {fields complete}, (∀ field ∈ fields, K field.2) → K (f.record fields complete)
  arrow : ∀ {parameter result}, K parameter → K result → K (f.arrow parameter result)
  con : ∀ {head arguments}, (∀ argument ∈ arguments, K argument) → K (f.con head arguments)
  tuple : ∀ {elements}, (∀ element ∈ elements, K element) → K (f.tuple elements)

theorem keeps_rebuild : rebuild.Keeps P (AllNames P) where
  any := allNames_any
  var h := h
  bind h hbody := allNames_bind.mpr ⟨(allNames_bind.mp h).1, (allNames_bind.mp h).2.1, hbody⟩
  record h := allNames_record.mpr h
  arrow hparameter hresult := allNames_arrow.mpr ⟨hparameter, hresult⟩
  con h := allNames_con.mpr h
  tuple h := allNames_tuple.mpr h

theorem AllNames.fold {β : Type} {K : β → Prop} {f : Fold β} (hf : f.Keeps P K)
    (h : type.AllNames P) : K (type.fold f) := by
  induction type with
  | any => exact hf.any
  | var name domain free => exact hf.var h
  | bind name domain free body ih => exact hf.bind h (ih (allNames_bind.mp h).2.2)
  | record fields complete ih =>
    simp only [Ty.fold, foldFields_eq_map]
    apply hf.record
    exact forall_mem_map.mpr fun field hfield => ih field hfield (allNames_record.mp h field hfield)
  | arrow parameter result ihParameter ihResult =>
    exact hf.arrow (ihParameter (allNames_arrow.mp h).1) (ihResult (allNames_arrow.mp h).2)
  | con head arguments ih =>
    simp only [Ty.fold, foldList_eq_map]
    apply hf.con
    exact forall_mem_map.mpr fun argument hargument =>
      ih argument hargument (allNames_con.mp h argument hargument)
  | tuple elements ih =>
    simp only [Ty.fold, foldList_eq_map]
    apply hf.tuple
    exact forall_mem_map.mpr fun element helement =>
      ih element helement (allNames_tuple.mp h element helement)

section

variable (h : type.AllNames P)
include h

theorem AllNames.rename {names : Table String} (hnames : ∀ entry ∈ names, P entry.2) :
    (type.rename names).AllNames P := by
  have hnew : ∀ {name}, P name → P ((Table.get? names name).getD name) := by
    intro name hname
    cases hfound : Table.get? names name with
    | none => exact hname
    | some new => exact hnames _ (mem_of_get? hfound)
  change AllNames P (Ty.fold _ type)
  refine AllNames.fold ?_ h
  refine { keeps_rebuild with
    var := fun h => ?_
    bind := fun h hbody => ?_ }
  · exact allNames_var.mpr ⟨hnew (allNames_var.mp h).1, (allNames_var.mp h).2⟩
  · obtain ⟨hname, hdomain, _⟩ := allNames_bind.mp h
    exact allNames_bind.mpr ⟨hnew hname, hdomain, hbody⟩

theorem AllNames.substitute {types : Table Ty} (htypes : ∀ entry ∈ types, entry.2.AllNames P) :
    (type.substitute types).AllNames P := by
  change AllNames P (Ty.fold _ type)
  refine AllNames.fold ?_ h
  refine { keeps_rebuild with
    var := fun {name _ _} h => ?_
    bind := fun h hbody => ?_ }
  · dsimp only
    cases hfound : Table.get? types name with
    | none => exact h
    | some new => exact htypes _ (mem_of_get? hfound)
  · dsimp only
    split
    · exact hbody
    · exact keeps_rebuild.bind h hbody

theorem AllNames.mapCons {f : TyCon → List Ty → Ty}
    (hf : ∀ head arguments, (∀ argument ∈ arguments, argument.AllNames P) →
      (f head arguments).AllNames P) : (type.mapCons f).AllNames P := by
  change AllNames P (Ty.fold _ type)
  refine AllNames.fold ?_ h
  exact { keeps_rebuild with con := fun h => hf _ _ h }

theorem AllNames.simplify : type.simplify.AllNames P := by
  change AllNames P (Ty.fold _ type)
  refine AllNames.fold ?_ h
  refine { keeps_rebuild with
    tuple := fun helements => ?_ }
  rw [allNames_record]
  exact fun field hfield => helements _ (mem_of_mem_tupleFields hfield)

theorem AllNames.makeFree : type.makeFree.AllNames P := by
  change AllNames P (Ty.fold _ type)
  refine AllNames.fold ?_ h
  refine { keeps_rebuild with
    var := fun h => ?_
    bind := fun h hbody => ?_ }
  · exact allNames_var.mpr (allNames_var.mp h)
  · obtain ⟨hname, hdomain, _⟩ := allNames_bind.mp h
    exact allNames_bind.mpr ⟨hname, hdomain, hbody⟩

theorem AllNames.quantify {names : List String} (hnames : ∀ name ∈ names, P name) :
    (type.quantify names).AllNames P := by
  induction names with
  | nil => exact h
  | cons name names ih =>
    refine allNames_bind.mpr ⟨hnames name (by simp), by simp, ?_⟩
    exact ih fun name hname => hnames name (by simp [hname])

theorem AllNames.unquantify :
    (∀ binder ∈ type.unquantify.1, P binder.name ∧ ∀ type ∈ binder.domain, type.AllNames P) ∧
      type.unquantify.2.AllNames P := by
  induction type with
  | bind name domain free body ih =>
    obtain ⟨hname, hdomain, hbody⟩ := allNames_bind.mp h
    obtain ⟨hbinders, hinner⟩ := ih hbody
    refine ⟨fun binder hbinder => ?_, hinner⟩
    rcases mem_cons.mp hbinder with rfl | hbinder
    · exact ⟨hname, hdomain⟩
    · exact hbinders binder hbinder
  | _ => exact ⟨by simp [Ty.unquantify], h⟩

theorem AllNames.defaultWithin (bound : Nat) : (defaultWithin bound type).AllNames P := by
  induction bound generalizing type with
  | zero => exact h
  | succ bound ih =>
    change AllNames P (Ty.fold _ type)
    refine AllNames.fold ?_ h
    refine { keeps_rebuild with
      var := fun {name domain free} h => ?_
      bind := fun {name domain free body rebuilt} h hbody => ?_ }
    · cases domain with
      | nil => exact h
      | cons default rest => exact (allNames_var.mp h).2 default (by simp)
    · cases domain with
      | nil => exact keeps_rebuild.bind h hbody
      | cons default rest =>
        obtain ⟨_, hdomain, hbody⟩ := allNames_bind.mp h
        refine ih (hbody.substitute fun entry hentry => ?_)
        rw [mem_singleton.mp hentry]
        exact hdomain default (by simp)

theorem AllNames.defaultDomains : type.defaultDomains.AllNames P :=
  h.defaultWithin _

end

/-! ## Collecting variables -/

theorem mem_mergeDomain (h : type ∈ mergeDomain first second) : type ∈ first ∨ type ∈ second := by
  unfold mergeDomain at h
  split at h
  · exact .inr h
  · split at h
    · exact .inl h
    · exact .inl (mem_of_mem_filter h)

theorem allNames_mergeDomain (hfirst : ∀ type ∈ first, type.AllNames P)
    (hsecond : ∀ type ∈ second, type.AllNames P) :
    ∀ type ∈ mergeDomain first second, type.AllNames P :=
  fun type htype => (mem_mergeDomain htype).elim (hfirst type) (hsecond type)

/-- Variables of some kind with domains of such types. -/
def AllDomains (P : String → Prop) (domains : Table (List Ty)) : Prop :=
  ∀ entry ∈ domains, P entry.1 ∧ ∀ type ∈ entry.2, type.AllNames P

theorem AllDomains.insert (h : AllDomains P domains) (hname : P name)
    (hdomain : ∀ type ∈ domain, type.AllNames P) :
    AllDomains P (Table.insert domains name domain) := by
  intro entry hentry
  rcases mem_of_mem_insert hentry with rfl | hentry
  · exact ⟨hname, hdomain⟩
  · exact h entry hentry

theorem AllDomains.addVariable (h : AllDomains P domains) (hname : P name)
    (hdomain : ∀ type ∈ domain, type.AllNames P) :
    AllDomains P (addVariable name domain domains) := by
  unfold Ty.addVariable
  cases hfound : Table.get? domains name with
  | none => exact h.insert hname hdomain
  | some earlier =>
    have hearlier := (h _ (mem_of_get? hfound)).2
    exact h.insert hname (allNames_mergeDomain hearlier hdomain)

/-- What is passed from part to part stays of a kind. -/
def Passed {β : Type} (K : β → Prop) (step : β → β) : Prop := ∀ found, K found → K (step found)

theorem Passed.foldl {α β : Type} {K : β → Prop} {step : α → β → β} {items : List α}
    (h : ∀ item ∈ items, Passed K (step item)) :
    Passed K fun found => items.foldl (fun found item => step item found) found :=
  fun _ hfound => List.foldlRecOn items _ hfound fun found hfound item hitem =>
    h item hitem found hfound

theorem keeps_variables (freeOnly : Bool) :
    (collectVariables freeOnly).Keeps P (Passed (AllDomains P)) where
  any _ hfound := hfound
  var {name domain free} h found hfound := by
    simp only [collectVariables]
    split
    · exact hfound
    · exact hfound.addVariable (allNames_var.mp h).1 (allNames_var.mp h).2
  bind {name domain free body inner} _ hinner found hfound := by
    have hempty : AllDomains P (inner []) := hinner [] (by simp [AllDomains])
    refine List.foldlRecOn _ _ hfound fun found hfound entry hentry => ?_
    have hentry : entry ∈ inner [] := by
      split at hentry
      · exact hentry
      · exact mem_of_mem_filter hentry
    exact hfound.addVariable (hempty entry hentry).1 (hempty entry hentry).2
  record h := .foldl h
  arrow hparameter hresult found hfound := hresult _ (hparameter found hfound)
  con h := .foldl h
  tuple h := .foldl h

theorem AllNames.variableDomains (h : type.AllNames P) (freeOnly : Bool) :
    AllDomains P (type.variableDomains freeOnly) :=
  h.fold (keeps_variables freeOnly) [] (by simp [AllDomains])

private theorem forall_addName (hname : P name) {names : List String} (h : ∀ name ∈ names, P name) :
    ∀ other ∈ addName name names, P other := by
  unfold addName
  split
  · exact h
  · simpa [hname] using h

theorem keeps_names : collectNames.Keeps P (Passed fun names => ∀ name ∈ names, P name) where
  any _ hfound := hfound
  var h _ hfound := forall_addName (allNames_var.mp h).1 hfound
  bind h hinner _ hfound := hinner _ (forall_addName (allNames_bind.mp h).1 hfound)
  record h := .foldl h
  arrow hparameter hresult found hfound := hresult _ (hparameter found hfound)
  con h := .foldl h
  tuple h := .foldl h

theorem AllNames.variableNames (h : type.AllNames P) : ∀ name ∈ type.variableNames, P name := by
  intro name hname
  exact h.fold keeps_names [] (by simp) name (mem_reverse.mp hname)

end Ty

theorem Ty.AllNames.abbreviation? {P : String → Prop} {info : TypeInfo} (h : info.type.AllNames P)
    {abbreviation : Abbreviation} (hfound : info.abbreviation? = some abbreviation) :
    (∀ type ∈ abbreviation.parameters, type.AllNames P) ∧ abbreviation.body.AllNames P := by
  unfold TypeInfo.abbreviation? at hfound
  split at hfound
  · rename_i hshape
    cases hfound
    rwa [hshape, allNames_arrow, allNames_con] at h
  · cases hfound

/-! ## Stores -/

namespace Store

def names (store : Store) : List String :=
  (store.bindings.flatMap fun entry => entry.1 :: entry.2.type.names) ++
    store.domains.flatMap fun entry =>
      entry.1 :: entry.2.flatMap Ty.names

def AllNames (P : String → Prop) (store : Store) : Prop := ∀ name ∈ store.names, P name

variable {P : String → Prop} {store : Store}

theorem allNames_iff : store.AllNames P ↔
      (∀ entry ∈ store.bindings, P entry.1 ∧ entry.2.type.AllNames P) ∧
        Ty.AllDomains P store.domains := by
  simp only [AllNames, names, forall_mem_append, forall_mem_flatMap, forall_mem_cons]
  rfl

@[simp] theorem allNames_empty : Store.AllNames P {} := by
  simp [allNames_iff, Ty.AllDomains]

namespace AllNames

variable (h : store.AllNames P)
include h

theorem imp (hP : ∀ name, P name → P' name) : store.AllNames P' :=
  fun name hname => hP name (h name hname)

theorem get? {binding : Binding} (hfound : store.get? name = some binding) :
    P name ∧ binding.type.AllNames P :=
  (allNames_iff.mp h).1 _ (mem_of_get? hfound)

theorem domain? (hfound : store.domain? name = some domain) : ∀ type ∈ domain, type.AllNames P :=
  ((allNames_iff.mp h).2 _ (mem_of_get? hfound)).2

theorem bind (hname : P name) (htype : type.AllNames P) (free : Bool) :
    (store.bind name type free).AllNames P := by
  rw [allNames_iff] at h ⊢
  refine ⟨fun entry hentry => ?_, h.2⟩
  rcases mem_of_mem_insert hentry with rfl | hentry
  · exact ⟨hname, htype⟩
  · exact h.1 entry hentry

theorem constrain (hname : P name) (hdomain : ∀ type ∈ domain, type.AllNames P) :
    (store.constrain name domain).AllNames P := by
  rw [allNames_iff] at h ⊢
  exact ⟨h.1, h.2.insert hname hdomain⟩

theorem freeOnly : store.freeOnly.AllNames P := by
  rw [allNames_iff] at h ⊢
  exact ⟨fun entry hentry => h.1 entry (mem_of_mem_filter hentry), h.2⟩

theorem follow (bound : Nat) (seen : List String) (hname : P name) :
    P (store.follow bound seen name) := by
  induction bound generalizing seen name with
  | zero => exact hname
  | succ bound ih =>
    unfold Store.follow
    split
    · exact hname
    · split
      · rename_i next _ _ _ hfound
        split
        · exact ih _ (allNames_var.mp (h.get? hfound).2).1
        · exact hname
      · exact hname

end AllNames

end Store

/-! ## Bases -/

mutual

/-- The names of all variables in the types of a basis, of its structures,
signatures and functors. -/
def StaticBasis.names : StaticBasis → List String
  | ⟨types, values, structures, signatures, functors⟩ =>
    (types.flatMap fun entry => entry.2.type.names) ++
      (values.flatMap fun entry => entry.2.type.names) ++
      StaticBasis.namesIn structures ++ StaticBasis.namesIn signatures ++
      StaticBasis.namesOfFunctors functors

def StaticBasis.namesIn : List (String × StaticBasis) → List String
  | [] => []
  | (_, basis) :: rest => basis.names ++ StaticBasis.namesIn rest

def StaticBasis.namesOfFunctors : List (String × StaticFunctor) → List String
  | [] => []
  | (_, functor) :: rest =>
    functor.names ++ StaticBasis.namesOfFunctors rest

def StaticFunctor.names : StaticFunctor → List String
  | ⟨_, parameter, body, _⟩ => parameter.names ++ body.names

end

def StaticFunctor.AllNames (P : String → Prop) (functor : StaticFunctor) :
    Prop :=
  ∀ name ∈ functor.names, P name

namespace StaticBasis

def AllNames (P : String → Prop) (basis : StaticBasis) : Prop := ∀ name ∈ basis.names, P name

variable {P : String → Prop}

private theorem forall_namesIn :
    (∀ name ∈ namesIn structures, P name) ↔ ∀ entry ∈ structures, entry.2.AllNames P := by
  induction structures with
  | nil => simp [namesIn]
  | cons entry rest ih =>
    simp only [namesIn, forall_mem_append, forall_mem_cons, ih]
    rfl

private theorem forall_namesOfFunctors {functors : List (String × StaticFunctor)} :
    (∀ name ∈ namesOfFunctors functors, P name) ↔ ∀ entry ∈ functors, entry.2.AllNames P := by
  induction functors with
  | nil => simp [namesOfFunctors]
  | cons entry rest ih =>
    simp only [namesOfFunctors, forall_mem_append, forall_mem_cons, ih]
    rfl

theorem allNames_iff {basis : StaticBasis} : basis.AllNames P ↔
      (∀ entry ∈ basis.types, entry.2.type.AllNames P) ∧
        (∀ entry ∈ basis.values, entry.2.type.AllNames P) ∧
        (∀ entry ∈ basis.structures, entry.2.AllNames P) ∧
        (∀ entry ∈ basis.signatures, entry.2.AllNames P) ∧
        ∀ entry ∈ basis.functors, entry.2.AllNames P := by
  obtain ⟨types, values, structures, signatures, functors⟩ := basis
  simp only [AllNames, names, forall_mem_append, forall_mem_flatMap,
    forall_namesIn, forall_namesOfFunctors, and_assoc]
  rfl

@[simp] theorem allNames_empty : StaticBasis.AllNames P {} := by
  rw [allNames_iff]
  simp

theorem allNames_functor {functor : StaticFunctor} : functor.AllNames P ↔
      functor.parameter.AllNames P ∧ functor.body.AllNames P := by
  obtain ⟨parameterName, parameter, body, generated⟩ := functor
  simp only [StaticFunctor.AllNames, StaticFunctor.names, forall_mem_append]
  rfl

theorem induct (step : ∀ basis, (∀ entry ∈ basis.structures, motive entry.2) → motive basis)
    (basis : StaticBasis) : motive basis := by
  apply step
  intro entry hentry
  exact induct step entry.2
termination_by basis
decreasing_by
  have hmem := sizeOf_lt_of_mem hentry
  obtain ⟨types, values, structures, signatures, functors⟩ := basis
  obtain ⟨name, inner⟩ := entry
  simp only [Prod.mk.sizeOf_spec] at hmem
  simp only [mk.sizeOf_spec]
  omega

/-- Induction over a basis and the lists of structures in it. -/
@[elab_as_elim]
theorem walk (Q : List (String × StaticBasis) → Prop)
    (basis : ∀ types values structures signatures functors, Q structures →
      motive ⟨types, values, structures, signatures, functors⟩) (nil : Q [])
    (cons : ∀ entry entries, motive entry.2 → Q entries → Q (entry :: entries))
    (whole : StaticBasis) : motive whole := by
  induction whole using induct with
  | step whole ih =>
    obtain ⟨types, values, structures, signatures, functors⟩ := whole
    refine basis _ _ _ _ _ ?_
    simp only at ih
    induction structures with
    | nil => exact nil
    | cons entry entries ihEntries =>
      obtain ⟨hentry, hrest⟩ := forall_mem_cons.mp ih
      exact cons entry entries hentry (ihEntries hrest)

theorem mapTypesIn_eq_map (f : Ty → Ty) (structures : List (String × StaticBasis)) :
    mapTypesIn f structures = structures.map fun entry => (entry.1, entry.2.mapTypes f) := by
  induction structures with
  | nil => rfl
  | cons entry rest ih => rw [mapTypesIn, ih, map_cons]

namespace AllNames

variable {basis other : StaticBasis}

/-- A basis with nothing but what two bases have. -/
theorem both {combine : ∀ {α : Type}, Table α → Table α → Table α}
    (hcombine : ∀ {α : Type} {first second : Table α} {entry : String × α},
      entry ∈ combine first second → entry ∈ first ∨ entry ∈ second)
    (h : basis.AllNames P) (hother : other.AllNames P) :
    AllNames P ⟨combine basis.types other.types, combine basis.values other.values,
      combine basis.structures other.structures, combine basis.signatures other.signatures,
      combine basis.functors other.functors⟩ := by
  rw [allNames_iff] at h hother ⊢
  obtain ⟨htypes, hvalues, hstructures, hsignatures, hfunctors⟩ := h
  obtain ⟨htypes', hvalues', hstructures', hsignatures', hfunctors'⟩ := hother
  refine ⟨?_, ?_, ?_, ?_, ?_⟩ <;> intro entry hentry
  · exact (hcombine hentry).elim (htypes entry) (htypes' entry)
  · exact (hcombine hentry).elim (hvalues entry) (hvalues' entry)
  · exact (hcombine hentry).elim (hstructures entry) (hstructures' entry)
  · exact (hcombine hentry).elim (hsignatures entry) (hsignatures' entry)
  · exact (hcombine hentry).elim (hfunctors entry) (hfunctors' entry)

variable (h : basis.AllNames P)
include h

theorem imp (hP : ∀ name, P name → P' name) : basis.AllNames P' :=
  fun name hname => hP name (h name hname)

theorem orElse (hother : other.AllNames P) : (basis.orElse other).AllNames P :=
  both mem_of_mem_orElse h hother

theorem override (hother : other.AllNames P) : (basis.override other).AllNames P :=
  both mem_of_mem_override h hother

theorem settled : basis.settled.AllNames P := by
  rw [allNames_iff] at h ⊢
  obtain ⟨htypes, hvalues, hrest⟩ := h
  refine ⟨fun entry hentry => ?_, fun entry hentry => ?_, hrest⟩
  · exact htypes entry (mem_of_mem_filter hentry)
  · exact hvalues entry (mem_of_mem_filter hentry)

theorem mapTypes {f : Ty → Ty} (hf : ∀ type, type.AllNames P →
    (f type).AllNames P) : (basis.mapTypes f).AllNames P := by
  induction basis using StaticBasis.induct with
  | step basis ih =>
    obtain ⟨types, values, structures, signatures, functors⟩ := basis
    obtain ⟨htypes, hvalues, hstructures, hrest⟩ := allNames_iff.mp h
    rw [StaticBasis.mapTypes, allNames_iff]
    refine ⟨?_, ?_, ?_, hrest⟩ <;> intro entry hentry
    · obtain ⟨original, horiginal, rfl⟩ := mem_map.mp hentry
      exact hf _ (htypes original horiginal)
    · obtain ⟨original, horiginal, rfl⟩ := mem_map.mp hentry
      exact hf _ (hvalues original horiginal)
    · rw [mapTypesIn_eq_map] at hentry
      obtain ⟨original, horiginal, rfl⟩ := mem_map.mp hentry
      exact ih original horiginal (hstructures original horiginal)

theorem qualify (name : String) : (basis.qualify name).AllNames P := by
  refine h.mapTypes fun type htype => htype.mapCons fun head arguments h => ?_
  split
  · exact allNames_con.mpr h
  · exact allNames_con.mpr h

end AllNames

theorem allNames_findIn (h : ∀ entry ∈ structures, entry.2.AllNames P) {path : List String}
    {found : StaticBasis} (hfound : findIn structures path = some found) : found.AllNames P := by
  fun_induction findIn structures path with
  | case1 => cases hfound
  | case2 structures name => exact h _ (mem_of_get? hfound)
  | case3 structures name rest _ basis hbasis ih =>
    refine ih ?_ hfound
    exact (allNames_iff.mp (h _ (mem_of_get? hbasis))).2.2.1
  | case4 => cases hfound

end StaticBasis

end Sml
