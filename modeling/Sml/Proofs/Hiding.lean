import Sml.Proofs.Generativity
import Sml.Proofs.SignatureMatching

/-!
# What an opaque signature hides

If a signature leaves all its types abstract, then what it shows of a
structure that matches it can be computed without the structure: from the
signature and the numbers that the next types get.  So two structures look
the same behind it.  The types that stand for the abstract ones have numbers
that were never given before.
-/

namespace Sml

open List Option StaticBasis Table

namespace StaticBasis

mutual

/-- No type is specified with constructors or defined, neither in the basis
nor in its structures. -/
def isAbstract : StaticBasis → Bool
  | ⟨types, _, structures, _, _⟩ =>
    types.all (fun entry =>
      entry.2.constructors.isEmpty && !entry.2.isAbbreviation) &&
      areAbstract structures

def areAbstract : List (String × StaticBasis) → Bool
  | [] => true
  | (_, basis) :: rest => isAbstract basis && areAbstract rest

end

theorem areAbstract_eq_all (structures : List (String × StaticBasis)) :
    areAbstract structures = structures.all fun entry => entry.2.isAbstract := by
  induction structures with
  | nil => rfl
  | cons entry rest ih => rw [areAbstract, ih, all_cons]

theorem isAbstract_iff {basis : StaticBasis} : basis.isAbstract = true ↔ (∀ entry ∈ basis.types,
        entry.2.constructors = [] ∧ entry.2.isAbbreviation = false) ∧
      ∀ entry ∈ basis.structures, entry.2.isAbstract = true := by
  obtain ⟨types, values, structures, signatures, functors⟩ := basis
  simp only [isAbstract, areAbstract_eq_all, Bool.and_eq_true, List.all_eq_true,
    List.isEmpty_iff, Bool.not_eq_true']

def typeAt? (basis : StaticBasis) (path : List String) (name : String) : Option TypeInfo :=
  (basis.structureAt? path).bind fun inner => get? inner.types name

@[simp] theorem typeAt?_nil (basis : StaticBasis) (name : String) :
    basis.typeAt? [] name = get? basis.types name := rfl

theorem typeAt?_cons (basis : StaticBasis) (first : String) (rest : List String) (name : String) :
    basis.typeAt? (first :: rest) name = (get? basis.structures first).bind fun inner =>
        inner.typeAt? rest name := by
  rw [typeAt?, structureAt?, bind_assoc]
  rfl

mutual

/-- Every structure of the second basis is one of the first, however deep. -/
def Covers : StaticBasis → StaticBasis → Prop
  | implemented, ⟨_, _, structures, _, _⟩ =>
    CoversIn implemented.structures structures

def CoversIn : Table StaticBasis → List (String × StaticBasis) → Prop
  | _, [] => True
  | implemented, (name, specified) :: rest =>
    (∃ basis, get? implemented name = some basis ∧
      Covers basis specified) ∧ CoversIn implemented rest

end

/-! ## Going along a signature -/

mutual

/-- Rebuilds the structures of a basis that a signature has too. -/
def along (f : StaticBasis → StaticBasis → StaticBasis) : StaticBasis → StaticBasis → StaticBasis
  | ⟨types, values, structures, signatures, functors⟩, result =>
    { f ⟨types, values, structures, signatures, functors⟩ result with
      structures := alongIn f structures result.structures }

def alongIn (f : StaticBasis → StaticBasis → StaticBasis) :
    List (String × StaticBasis) → Table StaticBasis → Table StaticBasis
  | [], result => result
  | (name, specified) :: rest, result =>
    match get? result name with
    | some inner =>
      alongIn f rest (insert result name (along f specified inner))
    | none => alongIn f rest result

end

theorem typeAt?_along {f : StaticBasis → StaticBasis → StaticBasis}
    (hf : ∀ specified result, (f specified result).types = result.types)
    (specified result : StaticBasis) (path : List String) (name : String) :
    (along f specified result).typeAt? path name = result.typeAt? path name := by
  induction specified using walk (fun entries => ∀ table first rest,
      ((get? (alongIn f entries table) first).bind fun inner => inner.typeAt? rest name) =
        (get? table first).bind fun inner => inner.typeAt? rest name)
      generalizing result path with
  | basis _ _ _ _ _ ih =>
    cases path with
    | nil => rw [along, typeAt?_nil, typeAt?_nil, hf]
    | cons first rest =>
      rw [along, typeAt?_cons, typeAt?_cons]
      exact ih _ _ _
  | nil => rfl
  | cons entry entries ih ihEntries table first rest =>
    rw [alongIn]
    cases hinner : get? table entry.1 with
    | none => exact ihEntries table first rest
    | some inner =>
      simp only
      rw [ihEntries, get?_insert]
      split
      · rename_i hname
        rw [hname] at hinner
        rw [hinner, bind_some, bind_some, ih]
      · rfl

end StaticBasis

/-! ## Hiding types -/

/-- The types hidden so far, and the numbers that the next ones get. -/
structure Veil where
  shown : Realisation := []
  ids : String → Nat

namespace Veil

def info (veil : Veil) (path : List String) (name : String) (specified : TypeInfo) : TypeInfo where
  type := .con { name, path, hidden := true, id := veil.ids name }
    ((TypeFunction.ofInfo specified).parameters.map Ty.plain)
  arity := specified.arity
  equality := specified.equality

def next (veil : Veil) (path : List String) (name : String) (specified : TypeInfo) : Veil where
  shown := veil.shown.insert name specified.id ⟨(TypeFunction.ofInfo specified).parameters,
      (veil.info path name specified).type⟩
  ids other := veil.ids other + if name = other then 1 else 0

def types (path : List String) : List (String × TypeInfo) → Table TypeInfo → Veil →
      Table TypeInfo × Veil
  | [], result, veil => (result, veil)
  | (name, specified) :: rest, result, veil =>
    types path rest (insert result name (veil.info path name specified))
      (veil.next path name specified)

mutual

def basis (path : List String) : StaticBasis → Veil → StaticBasis × Veil
  | ⟨types, _, structures, _, _⟩, veil =>
    let own := Veil.types path types [] veil
    let inner := Veil.structures path structures own.2
    ({ types := own.1, structures := inner.1 }, inner.2)

def structures (path : List String) :
    List (String × StaticBasis) → Veil → List (String × StaticBasis) × Veil
  | [], veil => ([], veil)
  | (name, specified) :: rest, veil =>
    let own := Veil.basis (path ++ [name]) specified veil
    let others := Veil.structures path rest own.2
    ((name, own.1) :: others.1, others.2)

end

end Veil

namespace StaticBasis

def withValues (shown : Realisation) (specified result : StaticBasis) : StaticBasis := { result with
    values := mapValues
      (fun value => { type := shown.apply value.type, status := value.status })
      specified.values }

/-- What a signature that hides its types shows of a structure. -/
def hiddenView (specified : StaticBasis) (ids : String → Nat) :
    StaticBasis :=
  let hidden := Veil.basis [] specified { ids }
  along (withValues hidden.2.shown) specified (along (fun _ result => result) specified hidden.1)

theorem typeAt?_hiddenView (specified : StaticBasis) (ids : String → Nat)
    (path : List String) (name : String) :
    (specified.hiddenView ids).typeAt? path name =
      (Veil.basis [] specified { ids }).1.typeAt? path name := by
  rw [hiddenView, typeAt?_along (fun _ _ => by rfl), typeAt?_along fun _ _ => rfl]

end StaticBasis

/-! ## Hidden types are new -/

variable {path : List String}
variable {name : String}

namespace Veil

/-- A hidden type of the name at the path, with a number given on the way. -/
structure Gave (before after : Veil) (path : List String) (name : String)
    (info : TypeInfo) : Prop where
  hidden : ∃ parameters, info.type = .con { name, path, hidden := true, id := info.id } parameters
  lower : before.ids name ≤ info.id
  upper : info.id < after.ids name

theorem Gave.mono {earlier before after later : Veil} {info : TypeInfo}
    (h : Gave before after path name info) (hbefore : earlier.ids name ≤ before.ids name)
    (hafter : after.ids name ≤ later.ids name) : Gave earlier later path name info :=
  ⟨h.hidden, hbefore.trans h.lower, h.upper.trans_le hafter⟩

variable {name : String}

theorem ids_le_types (path : List String) (entries : List (String × TypeInfo))
    (table : Table TypeInfo) (veil : Veil) :
    veil.ids name ≤ (types path entries table veil).2.ids name := by
  induction entries generalizing table veil with
  | nil => exact le_rfl
  | cons entry entries ih =>
    exact le_trans (Nat.le_add_right _ _) (ih _ (veil.next path entry.1 entry.2))

mutual

theorem ids_le_basis (path : List String) (specified : StaticBasis)
    (veil : Veil) : veil.ids name ≤ (basis path specified veil).2.ids name := by
  obtain ⟨types, values, structures, signatures, functors⟩ := specified
  exact (ids_le_types path types [] veil).trans (ids_le_structures path structures _)

theorem ids_le_structures (path : List String)
    (entries : List (String × StaticBasis)) (veil : Veil) :
    veil.ids name ≤ (structures path entries veil).2.ids name := by
  cases entries with
  | nil => exact le_rfl
  | cons entry entries =>
    obtain ⟨label, specified⟩ := entry
    exact (ids_le_basis (path ++ [label]) specified veil).trans (ids_le_structures path entries _)

end

theorem get?_types (path : List String) (entries : List (String × TypeInfo))
    (table : Table TypeInfo) (veil : Veil) (name : String) :
    (name ∈ keys entries → ∃ info,
      get? (types path entries table veil).1 name = some info ∧
        Gave veil (types path entries table veil).2 path name info) ∧
    (name ∉ keys entries → get? (types path entries table veil).1 name =
        get? table name) := by
  induction entries generalizing table veil with
  | nil => exact ⟨by simp, fun _ => rfl⟩
  | cons entry entries ih =>
    obtain ⟨label, specified⟩ := entry
    have hnext : (veil.next path label specified).ids name =
        veil.ids name + if label = name then 1 else 0 := rfl
    obtain ⟨hin, hout⟩ := ih (insert table label (veil.info path label specified))
      (veil.next path label specified)
    simp only [types, Table.keys_cons, mem_cons, not_or]
    refine ⟨fun hname => ?_, fun hname => ?_⟩
    · by_cases hlater : name ∈ keys entries
      · obtain ⟨info, hinfo, hgave⟩ := hin hlater
        exact ⟨info, hinfo, hgave.mono (by omega) le_rfl⟩
      · obtain rfl : name = label := hname.resolve_right hlater
        rw [hout hlater, get?_insert, if_pos rfl]
        refine ⟨_, rfl, ⟨_, rfl⟩, le_rfl, ?_⟩
        refine lt_of_lt_of_le ?_ (ids_le_types path entries _ _)
        rw [hnext, if_pos rfl]
        exact Nat.lt_succ_self _
    · rw [hout hname.2, get?_insert, if_neg (Ne.symm hname.1)]

theorem gave_types {entries : List (String × TypeInfo)} {veil : Veil} {info : TypeInfo}
    (h : get? (types path entries [] veil).1 name = some info) :
    Gave veil (types path entries [] veil).2 path name info := by
  obtain ⟨hin, hout⟩ := get?_types path entries [] veil name
  by_cases hname : name ∈ keys entries
  · obtain ⟨found, hfound, hgave⟩ := hin hname
    obtain rfl := Option.some.inj (hfound.symm.trans h)
    exact hgave
  · rw [hout hname] at h
    cases h

mutual

theorem isSome_typeAt?_basis (place : List String) (specified : StaticBasis)
    (veil : Veil) (path : List String) :
    ((basis place specified veil).1.typeAt? path name).isSome =
      (specified.typeAt? path name).isSome := by
  obtain ⟨types, values, structures, signatures, functors⟩ := specified
  cases path with
  | nil =>
    obtain ⟨hin, hout⟩ := get?_types place types [] veil name
    change (get? (Veil.types place types [] veil).1 name).isSome = contains types name
    rw [Bool.eq_iff_iff, contains_iff]
    by_cases hname : name ∈ keys types
    · obtain ⟨info, hinfo, -⟩ := hin hname
      simp [hinfo, hname]
    · simp [hout hname, hname]
  | cons first rest =>
    rw [typeAt?_cons, typeAt?_cons]
    exact isSome_typeAt?_structures place structures _ first rest

theorem isSome_typeAt?_structures (place : List String) (entries : List (String × StaticBasis))
    (veil : Veil) (first : String) (rest : List String) :
    ((get? (structures place entries veil).1 first).bind fun inner =>
      inner.typeAt? rest name).isSome =
    ((get? entries first).bind fun inner =>
      inner.typeAt? rest name).isSome := by
  cases entries with
  | nil => rfl
  | cons entry entries =>
    obtain ⟨label, specified⟩ := entry
    rw [structures, get?_cons, get?_cons]
    split
    · exact isSome_typeAt?_basis (place ++ [label]) specified veil rest
    · exact isSome_typeAt?_structures place entries _ first rest

end

mutual

theorem gave_basis {place : List String} {specified : StaticBasis}
    {veil : Veil} {path : List String} {info : TypeInfo}
    (h : (basis place specified veil).1.typeAt? path name = some info) :
    Gave veil (basis place specified veil).2 (place ++ path) name info := by
  obtain ⟨types, values, structures, signatures, functors⟩ := specified
  cases path with
  | nil =>
    rw [append_nil]
    exact (gave_types h).mono le_rfl (ids_le_structures place structures _)
  | cons first rest =>
    rw [typeAt?_cons] at h
    exact (gave_structures h).mono (ids_le_types place types [] veil) le_rfl

theorem gave_structures {place : List String} {entries : List (String × StaticBasis)} {veil : Veil}
    {first : String} {rest : List String} {info : TypeInfo}
    (h : ((get? (structures place entries veil).1 first).bind
      fun inner => inner.typeAt? rest name) = some info) :
    Gave veil (structures place entries veil).2 (place ++ first :: rest) name
      info := by
  cases entries with
  | nil => cases h
  | cons entry entries =>
    obtain ⟨label, specified⟩ := entry
    rw [structures, get?_cons] at h
    split at h
    · rename_i hlabel
      obtain rfl : label = first := hlabel
      have hgave : Gave veil (basis (place ++ [label]) specified veil).2
          ((place ++ [label]) ++ rest) name info := gave_basis h
      rw [append_assoc] at hgave
      exact hgave.mono le_rfl (ids_le_structures place entries _)
    · exact (gave_structures h).mono (ids_le_basis (place ++ [label]) specified veil) le_rfl

end

mutual

theorem path_eq_of_id_eq_basis {place : List String} {specified : StaticBasis}
    {veil : Veil} {path path' : List String} {info info' : TypeInfo}
    (h : (basis place specified veil).1.typeAt? path name = some info)
    (h' : (basis place specified veil).1.typeAt? path' name = some info')
    (hid : info.id = info'.id) : path = path' := by
  obtain ⟨types, values, structures, signatures, functors⟩ := specified
  cases path with
  | nil =>
    cases path' with
    | nil => rfl
    | cons first rest =>
      rw [typeAt?_cons] at h'
      have hupper := (gave_types h).upper
      have hlower := (gave_structures h').lower
      omega
  | cons first rest =>
    rw [typeAt?_cons] at h
    cases path' with
    | nil =>
      have hupper := (gave_types h').upper
      have hlower := (gave_structures h).lower
      omega
    | cons first' rest' =>
      rw [typeAt?_cons] at h'
      exact path_eq_of_id_eq_structures h h' hid

theorem path_eq_of_id_eq_structures {place : List String} {entries : List (String × StaticBasis)}
    {veil : Veil} {first first' : String} {rest rest' : List String} {info info' : TypeInfo}
    (h : ((get? (structures place entries veil).1 first).bind
      fun inner => inner.typeAt? rest name) = some info)
    (h' : ((get? (structures place entries veil).1 first').bind
      fun inner => inner.typeAt? rest' name) = some info') (hid : info.id = info'.id) :
    first :: rest = first' :: rest' := by
  cases entries with
  | nil => cases h
  | cons entry entries =>
    obtain ⟨label, specified⟩ := entry
    rw [structures, get?_cons] at h h'
    split at h
    · rename_i hlabel
      split at h'
      · rename_i hlabel'
        rw [← hlabel, ← hlabel', path_eq_of_id_eq_basis h h' hid]
      · have hupper := (gave_basis h).upper
        have hlower := (gave_structures h').lower
        omega
    · split at h'
      · have hupper := (gave_basis h').upper
        have hlower := (gave_structures h).lower
        omega
      · exact path_eq_of_id_eq_structures h h' hid

end

end Veil

/-! ## Matching shows no more -/

variable {after state : ElabState} {realised : Realised} {specified : StaticBasis}

namespace Elab

variable {scope : Scope} {span : Span}

def Realised.veil (realised : Realised) (state : ElabState) : Veil :=
  ⟨realised.shown, state.tree.peekTypeId⟩

theorem matchAbstractType_eq_veil {specified implemented info : TypeInfo} {realised' : Realised}
    (hconstructors : specified.constructors = [])
    (h : matchAbstractType scope span true path name specified implemented
      realised state = .ok (info, realised') after) :
    info = (realised.veil state).info path name specified ∧ realised'.veil after =
        (realised.veil state).next path name specified := by
  rw [matchAbstractType] at h
  obtain ⟨_, _, hequality, h⟩ := bind_eq_ok_state h
  obtain ⟨_, _, hchecked, h⟩ := bind_eq_ok_state h
  obtain rfl := (advances_checkEquality (R := Eq) _ _ _ _ _).of_ok hequality
  obtain rfl := (advances_checkConstructors (R := Eq) _ _ _ _).of_ok hchecked
  rw [hconstructors] at h
  obtain ⟨id, _, hid, h⟩ := bind_eq_ok_state h
  cases hid
  cases h
  exact ⟨rfl, congrArg (Veil.mk _) (funext (state.tree.peekTypeId_newTypeId name))⟩

theorem matchAbstractTypes_eq_veil {implemented table table' : Table TypeInfo}
    {types : List (String × TypeInfo)} {realised' : Realised}
    (htypes : ∀ entry ∈ types, entry.2.constructors = [] ∧ entry.2.isAbbreviation = false)
    (h : matchAbstractTypes scope span true path implemented types table
      realised state = .ok (table', realised') after) :
    (table', realised'.veil after) = Veil.types path types table (realised.veil state) := by
  induction types generalizing table realised state with
  | nil =>
    cases h
    rfl
  | cons entry types ih =>
    obtain ⟨hconstructors, habbreviation⟩ := htypes entry (by simp)
    rw [matchAbstractTypes] at h
    cases hfound : get? implemented entry.1 with
    | none =>
      rw [hfound] at h
      cases h
    | some found =>
      simp only [hfound, habbreviation] at h
      split at h
      · cases h
      · obtain ⟨⟨info, next⟩, middle, hinfo, hrest⟩ := bind_eq_ok_state h
        obtain ⟨rfl, hnext⟩ := matchAbstractType_eq_veil hconstructors hinfo
        rw [Veil.types, ← hnext]
        exact ih (fun entry hentry => htypes entry (by simp [hentry])) hrest

theorem matchAbstract_eq_veil {implemented result : StaticBasis}
    {realised' : Realised} (habstract : specified.isAbstract = true)
    (h : matchAbstract scope span true path implemented specified realised
      state = .ok (result, realised') after) :
    (result, realised'.veil after) = Veil.basis path specified (realised.veil state) ∧
      implemented.Covers specified := by
  induction specified using walk (fun entries =>
      (∀ entry ∈ entries, entry.2.isAbstract = true) →
      ∀ {path implemented found realised realised' state after},
      matchAbstractIn scope span true path implemented entries realised state =
        .ok (found, realised') after →
      (found, realised'.veil after) = Veil.structures path entries (realised.veil state) ∧
        StaticBasis.CoversIn implemented entries)
      generalizing path implemented result realised realised' state after with
  | basis _ _ _ _ _ ih =>
    obtain ⟨htypes, hstructures⟩ := isAbstract_iff.mp habstract
    obtain ⟨⟨own, next⟩, middle, hown, h⟩ := bind_eq_ok_state h
    obtain ⟨⟨inner, last⟩, final, hinner, h⟩ := bind_eq_ok_state h
    cases h
    have hfirst := matchAbstractTypes_eq_veil htypes hown
    obtain ⟨hrest, hcovers⟩ := ih hstructures hinner
    rw [Veil.basis, ← hfirst]
    simp only
    rw [← hrest]
    exact ⟨rfl, hcovers⟩
  | nil _ h =>
    cases h
    exact ⟨rfl, trivial⟩
  | @cons entry entries ih ihEntries hentries _ implemented _ _ _ _ _ h =>
    obtain ⟨hentry, hentries⟩ := forall_mem_cons.mp hentries
    rw [matchAbstractIn] at h
    cases hbasis : get? implemented entry.1 with
    | none =>
      rw [hbasis] at h
      cases h
    | some basis =>
      rw [hbasis] at h
      obtain ⟨⟨inner, next⟩, middle, hinner, h⟩ := bind_eq_ok_state h
      obtain ⟨⟨others, last⟩, final, hothers, h⟩ := bind_eq_ok_state h
      cases h
      obtain ⟨hfirst, hcovers⟩ := ih hentry hinner
      obtain ⟨hrest, hcoversRest⟩ := ihEntries hentries hothers
      rw [Veil.structures, ← hfirst]
      simp only
      rw [← hrest]
      exact ⟨rfl, ⟨basis, hbasis, hcovers⟩, hcoversRest⟩

theorem matchDefinedTypes_eq_pure {implemented table : Table TypeInfo}
    {types : List (String × TypeInfo)} (htypes : ∀ entry ∈ types, entry.2.isAbbreviation = false)
    (realised : Realised) :
    matchDefinedTypes scope span implemented types table realised = pure (table, realised) := by
  induction types with
  | nil => rfl
  | cons entry types ih =>
    have hnone : entry.2.abbreviation? = none := not_isSome_iff_eq_none.mp
        (Bool.eq_false_iff.mp (htypes entry (by simp)))
    rw [matchDefinedTypes, hnone]
    exact ih fun entry hentry => htypes entry (by simp [hentry])

theorem matchDefined_eq_pure {implemented : StaticBasis} (habstract : specified.isAbstract = true)
    (hcovers : implemented.Covers specified) (result : StaticBasis) (realised : Realised) :
    matchDefined scope span implemented specified result realised =
      pure (.along (fun _ result => result) specified result, realised) := by
  induction specified using walk (fun entries =>
      (∀ entry ∈ entries, entry.2.isAbstract = true) → ∀ {implemented},
      StaticBasis.CoversIn implemented entries → ∀ table,
      matchDefinedIn scope span implemented entries table realised =
        pure (alongIn (fun _ result => result) entries table, realised))
      generalizing implemented result with
  | basis _ _ _ _ _ ih =>
    obtain ⟨htypes, hstructures⟩ := isAbstract_iff.mp habstract
    rw [matchDefined, matchDefinedTypes_eq_pure fun entry hentry =>
      (htypes entry hentry).2, pure_bind]
    simp only
    rw [ih hstructures hcovers, pure_bind]
    rfl
  | nil => rfl
  | cons entry entries ih ihEntries hentries hcovered table =>
    obtain ⟨⟨basis, hbasis, hcovers⟩, hrest⟩ := hcovered
    obtain ⟨hentry, hentries⟩ := forall_mem_cons.mp hentries
    rw [matchDefinedIn, alongIn, hbasis]
    cases get? table entry.1 with
    | none => exact ihEntries hentries hrest table
    | some inner =>
      simp only
      rw [ih hentry hcovers, pure_bind]
      exact ihEntries hentries hrest _

theorem returns_matchValuesOf (realised : Realised)
    (implemented : Table StaticValue) (values : List (String × StaticValue)) :
    Returns (mapValues (fun value : StaticValue =>
        { type := realised.shown.apply value.type, status := value.status })
        values)
      (matchValuesOf scope span realised implemented values) := by
  induction values with
  | nil => exact .pure
  | cons entry values ih =>
    rw [matchValuesOf]
    split
    · exact fun _ _ _ h => by cases h
    · split
      · exact fun _ _ _ h => by cases h
      · exact .bind fun _ => .andThen ih .pure

theorem returns_matchValues {implemented : StaticBasis}
    (hcovers : implemented.Covers specified) (result : StaticBasis) :
    Returns (.along (.withValues realised.shown) specified result)
      (matchValues scope span realised implemented specified result) := by
  induction specified using walk (fun entries => ∀ {implemented},
      StaticBasis.CoversIn implemented entries → ∀ table,
      Returns (alongIn (.withValues realised.shown) entries table)
        (matchValuesIn scope span realised implemented entries table))
      generalizing implemented result with
  | basis _ _ _ _ _ ih =>
    exact .andThen (returns_matchValuesOf _ _ _) (.andThen (ih hcovers _) .pure)
  | nil => exact .pure
  | cons entry entries ih ihEntries hcovered table =>
    obtain ⟨⟨basis, hbasis, hentry⟩, hrest⟩ := hcovered
    rw [matchValuesIn, alongIn, hbasis]
    cases get? table entry.1 with
    | none => exact ihEntries hrest table
    | some inner => exact .andThen (ih hentry inner) (ihEntries hrest _)

theorem matchSignature_eq_hiddenView {implemented result : StaticBasis}
    {realisation : Realisation} (habstract : specified.isAbstract = true)
    (h : matchSignature scope span true implemented specified state =
      .ok (result, realisation) after) :
    result = specified.hiddenView state.tree.peekTypeId ∧ ∀ name, (Veil.basis [] specified
        { ids := state.tree.peekTypeId }).2.ids name ≤
          after.tree.peekTypeId name := by
  rw [matchSignature] at h
  obtain ⟨inner, _, hnested, h⟩ := bind_eq_ok_state h
  obtain ⟨_, opened, hopened, h⟩ := bind_eq_ok_state h
  obtain ⟨⟨hidden, realised⟩, middle, hhidden, h⟩ := bind_eq_ok_state h
  obtain ⟨hveil, hcovers⟩ := matchAbstract_eq_veil habstract hhidden
  obtain ⟨_, _, hdefined, h⟩ := bind_eq_ok_state h
  rw [matchDefined_eq_pure habstract hcovers] at hdefined
  cases hdefined
  obtain ⟨_, _, hvalues, h⟩ := bind_eq_ok_state h
  cases h
  have hopen : Realised.veil {} opened = { ids := state.tree.peekTypeId } := by
    cases hnested
    cases hopened
    rfl
  rw [hopen] at hveil
  refine ⟨?_, fun name => ?_⟩
  · rw [returns_matchValues hcovers _ _ _ _ hvalues, hiddenView, ← hveil]
    rfl
  · rw [← hveil]
    have hkeeps := (advances_matchValues _ _ _ _ _ _).of_ok hvalues
    exact hkeeps.shared.typeIds name

/-- Two structures behind one opaque signature look the same.  A specified
type has become a hidden one, whose number was given to no type before, and
different types have different numbers. -/
theorem matchSignature_hides {specified first second shown shown' : StaticBasis}
    {scope scope' : Scope} {span span' : Span} {realisation realisation' : Realisation}
    {before before' after after' : ElabState} (habstract : specified.isAbstract = true)
    (hids : ∀ name, before.tree.peekTypeId name = before'.tree.peekTypeId name)
    (hfirst : matchSignature scope span true first specified before =
      .ok (shown, realisation) after)
    (hsecond : matchSignature scope' span' true second specified before' =
      .ok (shown', realisation') after') :
    shown = shown' ∧
    (∀ path name, (specified.typeAt? path name).isSome →
      ∃ info parameters, shown.typeAt? path name = some info ∧ info.type =
          .con { name, path, hidden := true, id := info.id } parameters ∧
        before.tree.Gives after.tree (name, info.id)) ∧
    ∀ path path' name info info', shown.typeAt? path name = some info →
      shown.typeAt? path' name = some info' → info.id = info'.id → path = path' := by
  obtain ⟨rfl, hafter⟩ := matchSignature_eq_hiddenView habstract hfirst
  obtain ⟨rfl, -⟩ := matchSignature_eq_hiddenView habstract hsecond
  refine ⟨by rw [funext hids], fun path name hname => ?_,
    fun path path' name info info' h h' hid => ?_⟩
  · rw [typeAt?_hiddenView]
    rw [← Veil.isSome_typeAt?_basis [] specified { ids := before.tree.peekTypeId }] at hname
    obtain ⟨info, hinfo⟩ := Option.isSome_iff_exists.mp hname
    obtain ⟨⟨parameters, htype⟩, hlower, hupper⟩ := Veil.gave_basis hinfo
    exact ⟨info, parameters, hinfo, htype, hlower, hupper.trans_le (hafter name)⟩
  · rw [typeAt?_hiddenView] at h h'
    exact Veil.path_eq_of_id_eq_basis h h' hid

def boxSpec : StaticBasis :=
  let box : Ty := .con { name := "t", id := 5 } [.plain "'a"]
  let count : Ty := .con { name := "t", id := 6 } []
  { types := [("t", { type := box, arity := 1, equality := false })]
    values := [("empty", { type := .bind "'a" [] false box })]
    structures := [("S", {
      types := [("t", { type := count, arity := 0, equality := true })]
      values := [("count", { type := .bind "'a" [] false (.arrow box count) })] })] }

def boxes (box count : Ty) : StaticBasis where
  types := [("t", .ofAbbreviation ⟨{ name := "t" }, [.plain "'a"], box⟩)]
  values := [("empty", { type := .bind "'a" [] false box })]
  structures := [("S", {
    types := [("t", .ofAbbreviation ⟨{ name := "t", id := 1 }, [], count⟩)]
    values := [("count", { type := .bind "'a" [] false (.arrow box count) })] })]

private theorem boxes_accepted : succeeds (matchSignature .root {} true
      (boxes (.list (.plain "'a")) .int) boxSpec) { tree := {} } = true ∧
    succeeds (matchSignature .root {} true
      (boxes .string (.list .string)) boxSpec) { tree := {} } = true := by
  decide +kernel

theorem matchSignature_hides_boxes : ∃ shown realisation realisation' after after' info,
      matchSignature .root {} true (boxes (.list (.plain "'a")) .int) boxSpec
        { tree := {} } = .ok (shown, realisation) after ∧
      matchSignature .root {} true (boxes .string (.list .string)) boxSpec
        { tree := {} } = .ok (shown, realisation') after' ∧
      shown.typeAt? ["S"] "t" = some info ∧
      ScopeTree.Gives {} after.tree ("t", info.id) := by
  obtain ⟨first, after, hfirst⟩ := exists_of_succeeds boxes_accepted.1
  obtain ⟨second, after', hsecond⟩ := exists_of_succeeds boxes_accepted.2
  obtain ⟨hsame, hgiven, -⟩ := matchSignature_hides (by decide)
    (fun _ => rfl) hfirst hsecond
  obtain ⟨info, -, hinfo, -, hgives⟩ := hgiven ["S"] "t" (by decide)
  refine ⟨first.1, first.2, second.2, after, after', info, hfirst, ?_, hinfo, hgives⟩
  rw [hsame]
  exact hsecond

/-- What the functor gives matches the signature and its view does not: the
entry by which `t` reads as a boolean is gone. -/
theorem accepts_matched_twice :
    let session := (Session.basic.load 9 "datatype t = A signature SIG = sig type u = t end").load 9
      "functor F (X : sig type t type u end) = X"
    session.accepts "structure S = F (struct type t = t -> bool type u = bool end) : SIG" = true ∧
    session.accepts "structure S = F (struct type t = t -> bool type u = bool end) : SIG : SIG" =
      false := by
  decide +kernel

/-- A definition whose name comes first is compared before the type that it
mentions is realised. -/
theorem accepts_reordered :
    Session.basic.accepts "structure X : sig type b type a = b list end where type b = int =
      struct type b = int type a = int list end" = false ∧
    Session.basic.accepts "structure X : sig type a type b = a list end where type a = int =
      struct type a = int type b = int list end" = true := by
  decide +kernel

end Elab

end Sml
