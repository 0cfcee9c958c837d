import Sml.Proofs.Matching
import Sml.Proofs.TypeNames

/-!
# Walking through a signature

Matching goes through a signature three times: for the types it leaves
abstract, for those it defines and for its values.  The first two walks keep
what the third one needs, so that every specified value is checked, however
deep inside substructures.
-/

namespace Sml

open StaticBasis Table

variable {first : String} {R : ElabState → ElabState → Prop} {result result' : StaticBasis}
  {table table' : Table StaticBasis} {value : StaticValue}

namespace StaticBasis

def structureAt? : StaticBasis → List String → Option StaticBasis
  | basis, [] => some basis
  | basis, first :: rest =>
    (get? basis.structures first).bind fun inner =>
      inner.structureAt? rest

def valueAt? (basis : StaticBasis) (path : List String) (name : String) : Option StaticValue :=
  (basis.structureAt? path).bind fun inner => get? inner.values name

def HasStructure (basis : StaticBasis) (path : List String) : Prop :=
  ∃ inner, basis.structureAt? path = some inner

theorem hasStructure_cons {basis : StaticBasis} {rest : List String} :
    basis.HasStructure (first :: rest) ↔ ∃ inner, get? basis.structures first = some inner ∧
        inner.HasStructure rest := by
  rw [HasStructure, structureAt?]
  cases get? basis.structures first with
  | none => simp
  | some inner => simp [HasStructure]

end StaticBasis

variable {hides : Bool} {path : List String} {implemented : Table StaticBasis}
  {entries : List (String × StaticBasis)} {realised realised' : Realised}
  {state state' : ElabState} {name : String} {specified : StaticBasis}

namespace Elab

variable (scope : Scope) (span : Span)

/-! ## What the walks leave as it is -/

theorem advances_checkEquality [IsPreorder ElabState R] (name : String) (specified : TypeInfo)
    (function : TypeFunction) : Advances R (checkEquality scope span name specified function) := by
  rw [checkEquality]
  refine .ite (.bind (.bind .get fun _ => .pure _) fun env => ?_) (.pure _)
  split
  · exact .pure _
  · exact .throw _
  · exact .throw _

theorem advances_checkConstructors [IsPreorder ElabState R] (name : String)
    (specified implemented : TypeInfo) :
    Advances R (checkConstructors span name specified implemented) := by
  rw [checkConstructors]
  refine .bind (.forIn _ fun constructor _ _ => ?_) fun _ => .pure _
  exact .ite (.bind (.throw _) fun _ => .pure _) (.pure _)

theorem advances_matchAbstractType (hides : Bool) (path : List String)
    (name : String) (specified implemented : TypeInfo) (realised : Realised) :
    Advances ElabState.Keeps (matchAbstractType scope span hides path name
      specified implemented realised) := by
  rw [matchAbstractType]
  refine .bind (advances_checkEquality _ _ _ _ _) fun _ =>
    .bind (advances_checkConstructors _ _ _ _) fun _ => ?_
  exact .ite (.pure _) (.bind (advances_newTypeId _) fun _ => .pure _)

theorem advances_matchAbstractTypes (hides : Bool) (path : List String)
    (implemented : Table TypeInfo) (types : List (String × TypeInfo))
    (result : Table TypeInfo) (realised : Realised) :
    Advances ElabState.Keeps (matchAbstractTypes scope span hides path
      implemented types result realised) := by
  induction types generalizing result realised with
  | nil => exact .pure _
  | cons entry types ih =>
    rw [matchAbstractTypes]
    split
    · exact .throw _
    · refine .ite (.throw _) (.ite (ih _ _) ?_)
      exact .bind (advances_matchAbstractType _ _ _ _ _ _ _ _) fun _ => ih _ _

theorem advances_matchAbstract (specified : StaticBasis) (hides : Bool)
    (path : List String) (implemented : StaticBasis) (realised : Realised) :
    Advances ElabState.Keeps
      (matchAbstract scope span hides path implemented specified realised) := by
  induction specified using walk (fun entries => ∀ path implemented realised,
      Advances ElabState.Keeps (matchAbstractIn scope span hides path implemented entries realised))
      generalizing path implemented realised with
  | basis _ _ _ _ _ ih =>
    exact .bind (advances_matchAbstractTypes _ _ _ _ _ _ _ _)
      fun _ => .bind (ih _ _ _) fun _ => .pure _
  | nil => exact .pure _
  | cons entry entries ih ihEntries path implemented realised =>
    rw [matchAbstractIn]
    split
    · exact .throw _
    · exact .bind (ih _ _ _) fun _ => .bind (ihEntries _ _ _) fun _ => .pure _

theorem advances_matchDefinedTypes (implemented : Table TypeInfo) (types : List (String × TypeInfo))
    (result : Table TypeInfo) (realised : Realised) :
    Advances ElabState.Keeps (matchDefinedTypes scope span implemented types result realised) := by
  induction types generalizing result realised with
  | nil => exact .pure _
  | cons entry types ih =>
    rw [matchDefinedTypes]
    split
    · refine .bind (.mapM fun _ _ => advances_fresh) fun _ => .bind .get fun _ => ?_
      split
      · exact .throw _
      · exact ih _ _
    · exact ih _ _

theorem advances_matchDefined (specified : StaticBasis)
    (implemented result : StaticBasis) (realised : Realised) :
    Advances ElabState.Keeps (matchDefined scope span implemented specified result realised) := by
  induction specified using walk (fun entries => ∀ implemented result realised,
      Advances ElabState.Keeps (matchDefinedIn scope span implemented entries result realised))
      generalizing implemented result realised with
  | basis _ _ _ _ _ ih =>
    exact .bind (advances_matchDefinedTypes _ _ _ _ _ _) fun _ => .bind (ih _ _ _) fun _ => .pure _
  | nil => exact .pure _
  | cons entry entries ih ihEntries implemented result realised =>
    rw [matchDefinedIn]
    split
    · exact .bind (ih _ _ _) fun _ => ihEntries _ _ _
    · exact ihEntries _ _ _

theorem advances_matchValuesOf (realised : Realised)
    (implemented : Table StaticValue) (values : List (String × StaticValue)) :
    Advances ElabState.Keeps (matchValuesOf scope span realised implemented values) := by
  induction values with
  | nil => exact .pure _
  | cons entry values ih =>
    rw [matchValuesOf]
    split
    · exact .throw _
    · refine .ite (.throw _) ?_
      exact .bind (advances_matchValue _ _ _ _ _) fun _ => .bind ih fun _ => .pure _

theorem advances_matchValues (realised : Realised) (specified : StaticBasis)
    (implemented result : StaticBasis) :
    Advances ElabState.Keeps (matchValues scope span realised implemented specified result) := by
  induction specified using walk (fun entries => ∀ implemented result,
      Advances ElabState.Keeps (matchValuesIn scope span realised implemented entries result))
      generalizing implemented result with
  | basis _ _ _ _ _ ih =>
    exact .bind (advances_matchValuesOf _ _ _ _ _) fun _ => .bind (ih _ _) fun _ => .pure _
  | nil => exact .pure _
  | cons entry entries ih ihEntries implemented result =>
    rw [matchValuesIn]
    split
    · exact .bind (ih _ _) fun _ => ihEntries _ _
    · exact ihEntries _ _

/-! ## What the walks find -/

variable {scope span}

theorem get?_of_matchAbstractIn {found : List (String × StaticBasis)}
    (h : matchAbstractIn scope span hides path implemented entries realised
      state = .ok (found, realised') state') (name : String) :
    (get? entries name = none ∧ get? found name = none) ∨
    ∃ specified basis inner before before' realised realised',
      get? entries name = some specified ∧
      get? implemented name = some basis ∧
      get? found name = some inner ∧
      matchAbstract scope span hides (path ++ [name]) basis specified realised
        before = .ok (inner, realised') before' := by
  induction entries generalizing realised state found with
  | nil =>
    cases h
    exact .inl ⟨rfl, rfl⟩
  | cons entry entries ih =>
    rw [matchAbstractIn] at h
    cases hbasis : get? implemented entry.1 with
    | none =>
      rw [hbasis] at h
      cases h
    | some basis =>
      rw [hbasis] at h
      obtain ⟨⟨inner, _⟩, _, hinner, hrest⟩ := bind_eq_ok_state h
      obtain ⟨⟨others, _⟩, _, hothers, hdone⟩ := bind_eq_ok_state hrest
      cases hdone
      rw [get?_cons, get?_cons]
      by_cases hname : entry.1 = name
      · rw [if_pos hname, if_pos hname, ← hname]
        exact .inr ⟨_, basis, inner, _, _, _, _, rfl, hbasis, rfl, hinner⟩
      · rw [if_neg hname, if_neg hname]
        exact ih hothers

theorem hasStructure_of_matchAbstract {place : List String} {implemented : StaticBasis}
    (h : matchAbstract scope span hides place implemented specified realised
      state = .ok (result, realised') state') (hpath : specified.HasStructure path) :
    implemented.HasStructure path ∧ result.HasStructure path := by
  induction path generalizing place implemented specified result realised
      realised' state state' with
  | nil => exact ⟨⟨_, rfl⟩, ⟨_, rfl⟩⟩
  | cons first rest ih =>
    obtain ⟨inner, hinner, hrest⟩ := hasStructure_cons.mp hpath
    obtain ⟨types, values, structures, signatures, functors⟩ := specified
    obtain ⟨⟨_, _⟩, _, _, hnext⟩ := bind_eq_ok_state h
    obtain ⟨⟨found, _⟩, _, hfound, hdone⟩ := bind_eq_ok_state hnext
    cases hdone
    obtain ⟨hnone, -⟩ | ⟨_, basis, part, _, _, _, _, hget, hbasis, hpart,
      hmatch⟩ := get?_of_matchAbstractIn hfound first
    · cases hnone.symm.trans hinner
    cases hget.symm.trans hinner
    obtain ⟨himplemented, hresult⟩ := ih hmatch hrest
    exact ⟨hasStructure_cons.mpr ⟨basis, hbasis, himplemented⟩,
      hasStructure_cons.mpr ⟨part, hpart, hresult⟩⟩

theorem of_matchDefinedIn {Q : Option StaticBasis → Prop}
    (hinner : ∀ {basis specified part part' realised realised' state state'},
      get? implemented first = some basis →
      matchDefined scope span basis specified part realised state =
        .ok (part', realised') state' → Q (some part) → Q (some part'))
    (h : matchDefinedIn scope span implemented entries table realised state =
      .ok (table', realised') state') (hfirst : Q (get? table first)) :
    Q (get? table' first) := by
  induction entries generalizing table realised state with
  | nil =>
    cases h
    exact hfirst
  | cons entry entries ih =>
    rw [matchDefinedIn] at h
    cases hbasis : get? implemented entry.1 with
    | none =>
      rw [hbasis] at h
      exact ih h hfirst
    | some basis =>
      cases hpart : get? table entry.1 with
      | none =>
        rw [hbasis, hpart] at h
        exact ih h hfirst
      | some part =>
        rw [hbasis, hpart] at h
        obtain ⟨⟨part', _⟩, _, hmatch, hrest⟩ := bind_eq_ok_state h
        apply ih hrest
        rw [get?_insert]
        split
        · rename_i hname
          rw [hname] at hbasis hpart
          exact hinner hbasis hmatch (hpart ▸ hfirst)
        · exact hfirst

theorem hasStructure_of_matchDefined {implemented : StaticBasis}
    (h : matchDefined scope span implemented specified result realised
      state = .ok (result', realised') state') (hpath : result.HasStructure path) :
    result'.HasStructure path := by
  induction path generalizing implemented specified result result' realised
      realised' state state' with
  | nil => exact ⟨_, rfl⟩
  | cons first rest ih =>
    obtain ⟨types, values, structures, signatures, functors⟩ := specified
    obtain ⟨⟨_, _⟩, _, _, hnext⟩ := bind_eq_ok_state h
    obtain ⟨⟨found, _⟩, _, hfound, hdone⟩ := bind_eq_ok_state hnext
    cases hdone
    rw [hasStructure_cons] at hpath ⊢
    refine of_matchDefinedIn (Q := fun found => ∃ inner, found = some inner ∧
      inner.HasStructure rest) (fun _ hmatch => ?_) hfound hpath
    rintro ⟨_, ⟨⟩, hinner⟩
    exact ⟨_, rfl, ih hmatch hinner⟩

/-- A value is found in the structure and passes the check. -/
def Passes (scope : Scope) (span : Span) (realised : Realised) (state : ElabState) (name : String)
    (specified implemented : StaticValue) : Prop :=
  ∃ before before', state.Keeps before ∧
    matchValue scope span name (realised.checked.apply specified.type)
      implemented.type before = .ok () before'

theorem Passes.earlier {later : ElabState} {specified implemented : StaticValue}
    (h : Passes scope span realised later name specified implemented) (hkeeps : state.Keeps later) :
    Passes scope span realised state name specified implemented := by
  obtain ⟨before, before', hbefore, hmatch⟩ := h
  exact ⟨before, before', IsTrans.trans _ _ _ hkeeps hbefore, hmatch⟩

theorem passes_of_matchValuesOf {implemented : Table StaticValue}
    {values shown : List (String × StaticValue)}
    (h : matchValuesOf scope span realised implemented values state = .ok shown state')
    {specified : StaticValue} (hname : get? values name = some specified) :
    ∃ value, get? implemented name = some value ∧
      Passes scope span realised state name specified value := by
  induction values generalizing state state' shown with
  | nil => simp at hname
  | cons entry values ih =>
    obtain ⟨label, first⟩ := entry
    rw [matchValuesOf] at h
    cases hvalue : get? implemented label with
    | none =>
      rw [hvalue] at h
      cases h
    | some value =>
      simp only [hvalue] at h
      split at h
      · cases h
      · obtain ⟨_, middle, hmatch, hrest⟩ := bind_eq_ok_state h
        obtain ⟨others, _, hothers, _⟩ := bind_eq_ok_state hrest
        rw [get?_cons] at hname
        split at hname
        · rename_i hlabel
          cases hname
          cases hlabel
          exact ⟨value, hvalue, state, middle, refl _, hmatch⟩
        · obtain ⟨value, hget, hpasses⟩ := ih hothers hname
          exact ⟨value, hget, hpasses.earlier ((advances_matchValue _ _ _ _ _).of_ok hmatch)⟩

theorem matchValues_of_matchValuesIn
    (h : matchValuesIn scope span realised implemented entries table state =
      .ok table' state') {basis part : StaticBasis}
    (hname : get? entries name = some specified)
    (hbasis : get? implemented name = some basis)
    (hpart : get? table name = some part) :
    ∃ part' before before', state.Keeps before ∧
      matchValues scope span realised basis specified part before = .ok part' before' := by
  induction entries generalizing table state with
  | nil => simp at hname
  | cons entry entries ih =>
    obtain ⟨label, first⟩ := entry
    rw [matchValuesIn] at h
    rw [get?_cons] at hname
    split at hname
    · rename_i hlabel
      cases hname
      cases hlabel
      rw [hbasis, hpart] at h
      obtain ⟨part', middle, hmatch, _⟩ := bind_eq_ok_state h
      exact ⟨part', state, middle, refl _, hmatch⟩
    · rename_i hlabel
      cases hfirst : get? implemented label with
      | none =>
        rw [hfirst] at h
        exact ih h hname hpart
      | some firstBasis =>
        cases hfirstPart : get? table label with
        | none =>
          rw [hfirst, hfirstPart] at h
          exact ih h hname hpart
        | some firstPart =>
          rw [hfirst, hfirstPart] at h
          obtain ⟨_, middle, hmatch, hrest⟩ := bind_eq_ok_state h
          obtain ⟨part', before, before', hbefore, hfound⟩ := ih hrest hname
              (by rw [get?_insert, if_neg hlabel, hpart])
          have hmiddle := (advances_matchValues _ _ _ _ _ _).of_ok hmatch
          exact ⟨part', before, before', IsTrans.trans _ _ _ hmiddle hbefore, hfound⟩

theorem passes_of_matchValues {implemented : StaticBasis}
    (h : matchValues scope span realised implemented specified result state = .ok result' state')
    (himplemented : implemented.HasStructure path) (hresult : result.HasStructure path)
    (hvalue : specified.valueAt? path name = some value) :
    ∃ found, implemented.valueAt? path name = some found ∧
      Passes scope span realised state name value found := by
  induction path generalizing implemented specified result result' state state' with
  | nil =>
    obtain ⟨types, values, structures, signatures, functors⟩ := specified
    obtain ⟨_, _, hvalues, _⟩ := bind_eq_ok_state h
    exact passes_of_matchValuesOf hvalues hvalue
  | cons first rest ih =>
    obtain ⟨basis, hbasis, hbasisRest⟩ := hasStructure_cons.mp himplemented
    obtain ⟨part, hpart, hpartRest⟩ := hasStructure_cons.mp hresult
    obtain ⟨types, values, structures, signatures, functors⟩ := specified
    obtain ⟨_, middle, hvalues, hnext⟩ := bind_eq_ok_state h
    obtain ⟨_, _, hin, _⟩ := bind_eq_ok_state hnext
    have hmiddle := (advances_matchValuesOf _ _ _ _ _).of_ok hvalues
    cases hinner : get? structures first with
    | none => simp [valueAt?, structureAt?, hinner] at hvalue
    | some inner =>
      obtain ⟨_, before, _, hbefore, hmatch⟩ := matchValues_of_matchValuesIn hin hinner hbasis hpart
      obtain ⟨found, hfound, hpasses⟩ := ih hmatch hbasisRest hpartRest
        (by simpa [valueAt?, structureAt?, hinner] using hvalue)
      refine ⟨found, ?_, hpasses.earlier (IsTrans.trans _ _ _ hmiddle hbefore)⟩
      simpa [valueAt?, structureAt?, hbasis] using hfound

/-! ## What a signature promises -/

/-- The types that are in scope when a structure is matched: its own, and
around them those of the scope. -/
def matchingEnv (scope : Scope) (implemented : StaticBasis) (tree : ScopeTree) : TypeEnv :=
  let (inner, tree) := tree.nested scope
  (tree.write inner (·.installStatics implemented)).typeEnv inner

theorem exists_matchValue_of_matchSignature {implemented : StaticBasis} {realisation : Realisation}
    (h : matchSignature scope span hides implemented specified state =
      .ok (result, realisation) state') (hvalue : specified.valueAt? path name = some value) :
    ∃ found inner before before', implemented.valueAt? path name = some found ∧
      before.tree.typeEnv inner = matchingEnv scope implemented state.tree ∧
      before.store = state.store ∧
      state.supply.next ≤ before.supply.next ∧
      matchValue inner span name (realisation.apply value.type) found.type
        before = .ok () before' := by
  rw [matchSignature] at h
  obtain ⟨inner, _, hnested, hrest⟩ := bind_eq_ok_state h
  obtain ⟨_, opened, hopened, hrest⟩ := bind_eq_ok_state hrest
  obtain ⟨⟨partial', realised⟩, middle, habstract, hrest⟩ := bind_eq_ok_state hrest
  obtain ⟨⟨whole, realised'⟩, last, hdefined, hrest⟩ := bind_eq_ok_state hrest
  obtain ⟨_, _, hvalues, hdone⟩ := bind_eq_ok_state hrest
  cases hdone
  have hkeeps := IsTrans.trans _ _ _ ((advances_matchAbstract _ _ _ _ _ _ _).of_ok habstract)
    ((advances_matchDefined _ _ _ _ _ _).of_ok hdefined)
  have hpath : specified.HasStructure path := by
    rw [valueAt?, Option.bind_eq_some_iff] at hvalue
    obtain ⟨basis, hbasis, _⟩ := hvalue
    exact ⟨basis, hbasis⟩
  obtain ⟨himplemented, hpartial⟩ := hasStructure_of_matchAbstract habstract hpath
  obtain ⟨found, hfound, before, before', hbefore, hmatch⟩ :=
    passes_of_matchValues hvalues himplemented
      (hasStructure_of_matchDefined hdefined hpartial) hvalue
  have hall := IsTrans.trans _ _ _ hkeeps hbefore
  cases hnested
  cases hopened
  exact ⟨found, _, before, before', hfound,
    ScopeTree.typeEnv_congr hall.frames _, hall.store, hall.supply, hmatch⟩

/-- Every specified value is in the structure.  It is at least as general as
specified just if all variables that it does not bind are settled. -/
theorem matchSignature_atLeastAsGeneral_iff {scope : Scope} {span : Span} {hides : Bool}
    {implemented specified result : StaticBasis} {realisation : Realisation}
    {state state' : ElabState}
    (hmatch : matchSignature scope span hides implemented specified state =
      .ok (result, realisation) state') (hacyclic : state.store.Acyclic)
    (hfresh : state.store.IsFreshFrom state.supply) (path : List String) (name : String)
    (value : StaticValue) (hvalue : specified.valueAt? path name = some value) :
    let env := matchingEnv scope implemented state.tree
    ∃ found, implemented.valueAt? path name = some found ∧
      (found.type.IsRegularScheme env state.store →
        (realisation.apply value.type).IsClosedScheme env →
        (Ty.AtLeastAsGeneral env state.store found.type (realisation.apply value.type) ↔
          found.type.IsSettled env state.store)) := by
  obtain ⟨found, inner, before, before', hfound, henv, hstore, hsupply,
    hvalueMatch⟩ := exists_matchValue_of_matchSignature hmatch hvalue
  refine ⟨found, hfound, fun hregular hclosed => ?_⟩
  rw [← henv, ← hstore] at hregular ⊢
  rw [← henv] at hclosed
  rw [← hstore] at hacyclic hfresh
  exact atLeastAsGeneral_iff_of_matchValue hacyclic (hfresh.mono hsupply)
    hregular hclosed hvalueMatch

/-- A substructure with a function whose first argument is what the store
says, and whose second argument may be anything. -/
def pairing : StaticBasis where
  structures := [("S", {
    values := [("pair", {
      type := .bind "'b" [] false (.arrow (.plain "'*t0")
        (.arrow (.plain "'b") (.tuple [.plain "'*t0", .plain "'b"]))) })] })]

def pairingType : Ty := .bind "'a" [] false (.arrow .int
    (.arrow (.list (.plain "'a")) (.tuple [.int, .list (.plain "'a")])))

def pairingSpec : StaticBasis where
  structures := [("S", { values := [("pair", { type := pairingType })] })]

def pairingState : ElabState where
  tree := {}
  store := { bindings := [("'*t0", ⟨.int, false⟩)] }
  supply := ⟨1⟩

private theorem pairing_accepted :
    (match matchSignature .root {} true pairing pairingSpec pairingState with
    | .ok (_, realisation) _ => realisation.isEmpty
    | .error _ _ => false) = true := by
  decide +kernel

theorem matchSignature_pairing_general : ∃ result realisation state' found,
      matchSignature .root {} true pairing pairingSpec pairingState =
        .ok (result, realisation) state' ∧
      pairing.valueAt? ["S"] "pair" = some found ∧
      Ty.AtLeastAsGeneral (matchingEnv .root pairing {}) pairingState.store
        found.type (realisation.apply pairingType) := by
  have hbinding : ∀ {name binding}, pairingState.store.get? name = some binding →
        name = "'*t0" ∧ binding = ⟨.int, false⟩ := by
    intro name binding h
    simpa [pairingState] using mem_of_get? h
  have hacyclic : pairingState.store.Acyclic :=
    (Store.Ranked.of_bindings (fun _ => 0) (by decide)).acyclic
  have hfresh : pairingState.store.IsFreshFrom pairingState.supply := by
    intro number hnumber
    constructor
    · apply Option.eq_none_iff_forall_ne_some.mpr
      intro binding h
      have hzero : number = 0 := NameSupply.name_injective (hbinding h).1
      simp [hzero, pairingState] at hnumber
    · apply Option.eq_none_iff_forall_ne_some.mpr
      intro binding h
      have hequality := NameSupply.isEqualityName_equalityName number
      rw [(hbinding h).1] at hequality
      simp [Ty.isEqualityName] at hequality
  have haccepted := pairing_accepted
  cases hresult : matchSignature .root {} true pairing pairingSpec pairingState with
  | error error state' => simp [hresult] at haccepted
  | ok pair state' =>
    obtain ⟨result, realisation⟩ := pair
    obtain rfl : realisation = [] := by simpa [hresult] using haccepted
    obtain ⟨found, hfound, hiff⟩ := matchSignature_atLeastAsGeneral_iff
      hresult hacyclic hfresh ["S"] "pair" { type := pairingType } rfl
    refine ⟨result, [], state', found, rfl, hfound, ?_⟩
    cases hfound
    refine (hiff ⟨by decide, by decide, ?_⟩
      ⟨by decide, by decide⟩).mpr ?_
    · intro name binding _ h
      obtain ⟨_, rfl⟩ := hbinding h
      decide
    · intro name hname
      have hnames : Ty.unquantified (.bind "'b" [] false
          (.arrow (.plain "'*t0") (.arrow (.plain "'b")
            (.tuple [.plain "'*t0", .plain "'b"])))) = ["'*t0"] := by
        decide
      obtain rfl : name = "'*t0" := by simpa [hnames] using hname
      obtain ⟨type, htype, hground⟩ : ∃ type, ((Ty.plain "'*t0").instantiate
          (matchingEnv .root pairing {}) pairingState.store).toOption = some type ∧
            type.variableNames = [] := by decide
      exact ⟨type, Ty.eq_ok_of_toOption htype, hground⟩

def refNil : StaticBasis where
  values := [("x", {
    type := .con { name := "ref" } [.list (.var "'*t0" [] true)] })]

def refNilType : Ty := .bind "'a" [] false (.con { name := "ref" } [.list (.plain "'a")])

def refNilSpec : StaticBasis where
  values := [("x", { type := refNilType })]

private theorem refNil_accepted : (match matchSignature .root {} false refNil refNilSpec
        { tree := {}, supply := ⟨1⟩ } with
    | .ok (_, realisation) _ => realisation.isEmpty
    | .error _ _ => false) = true := by
  decide +kernel

private theorem refNil_open :
    (match (Ty.plain "'*t0").instantiate (matchingEnv .root refNil {}) {} with
    | .ok type => type.variableNames.isEmpty
    | .error _ => false) = false := by
  rfl

/-- The one type that is not known passes for every type. -/
theorem matchSignature_refNil_not_general : ∃ result realisation state' found,
      matchSignature .root {} false refNil refNilSpec { tree := {}, supply := ⟨1⟩ } =
        .ok (result, realisation) state' ∧
      refNil.valueAt? [] "x" = some found ∧
      ¬ Ty.AtLeastAsGeneral (matchingEnv .root refNil {}) {} found.type
        (realisation.apply refNilType) := by
  have haccepted := refNil_accepted
  cases hresult : matchSignature .root {} false refNil refNilSpec { tree := {}, supply := ⟨1⟩ } with
  | error error state' => simp [hresult] at haccepted
  | ok pair state' =>
    obtain ⟨result, realisation⟩ := pair
    obtain rfl : realisation = [] := by simpa [hresult] using haccepted
    refine ⟨result, [], state', _, rfl, rfl, fun hgeneral => ?_⟩
    have hsettled := hgeneral.isSettled (fun name hcycle => by
        obtain ⟨_, ⟨binding, hbinding, _⟩, _⟩ := Relation.TransGen.head'_iff.mp hcycle
        cases hbinding)
      ⟨by decide, by decide, fun _ h => by cases h⟩
      (by decide)
    obtain ⟨type, htype, hnone⟩ := hsettled "'*t0" (by decide)
    have hopen := refNil_open
    simp [htype, hnone] at hopen

end Elab

end Sml
