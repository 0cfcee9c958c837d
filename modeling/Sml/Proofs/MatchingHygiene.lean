import Sml.Proofs.TypeHygiene

/-!
# Names in the view that a signature gives

A structure that matches a signature is shown with types of the structure and
of the signature.  The variables that are made for the comparison are fresh.
-/

namespace Sml

open Elab List StaticBasis Table Ty

/-! ## Realisations -/

structure TypeFunction.AllNames (P : String → Prop) (function : TypeFunction) : Prop where
  parameters : ∀ name ∈ function.parameters, P name
  body : function.body.AllNames P

def Realisation.AllNames (P : String → Prop) (realisation : Realisation) :
    Prop :=
  ∀ entry ∈ realisation, entry.2.AllNames P

structure Elab.Realised.AllNames (P : String → Prop) (realised : Realised) : Prop where
  checked : realised.checked.AllNames P
  shown : realised.shown.AllNames P

variable {realisation : Realisation} {realised : Realised}
variable {function : TypeFunction} {types : List (String × TypeInfo)}

section Kinds

variable {P P' : String → Prop}

namespace TypeFunction

theorem AllNames.imp (h : function.AllNames P) (hP : ∀ name, P name → P' name) :
    function.AllNames P' :=
  ⟨fun name hname => hP name (h.parameters name hname), h.body.imp hP⟩

theorem AllNames.apply (h : function.AllNames P) {arguments : List Ty}
    (harguments : ∀ argument ∈ arguments, argument.AllNames P) :
    (function.apply arguments).AllNames P := by
  refine h.body.substitute fun entry hentry => ?_
  exact harguments _ (of_mem_zip (mem_of_mem_ofList hentry)).2

theorem allNames_parameterNames {parameters : List Ty}
    (h : ∀ parameter ∈ parameters, parameter.AllNames P) :
    ∀ name ∈ parameterNames parameters, P name := by
  intro name hname
  obtain ⟨parameter, hparameter, hname⟩ := mem_filterMap.mp hname
  cases parameter with
  | var source domain free =>
    cases hname
    exact (allNames_var.mp (h _ hparameter)).1
  | _ => cases hname

theorem allNames_ofInfo {info : TypeInfo} (h : info.type.AllNames P) :
    (ofInfo info).AllNames P := by
  unfold ofInfo
  split
  · rename_i abbreviation hfound
    obtain ⟨hparameters, hbody⟩ := h.abbreviation? hfound
    exact ⟨allNames_parameterNames hparameters, hbody⟩
  · split
    · rename_i head parameters hshape
      rw [hshape] at h ⊢
      exact ⟨allNames_parameterNames (allNames_con.mp h), h⟩
    · exact ⟨by simp, h⟩

end TypeFunction

namespace Realisation

theorem AllNames.imp (h : realisation.AllNames P)
    (hP : ∀ name, P name → P' name) : realisation.AllNames P' :=
  fun entry hentry => (h entry hentry).imp hP

theorem AllNames.insert (h : realisation.AllNames P) (name : String) (id : Nat)
    (hfunction : function.AllNames P) : (realisation.insert name id function).AllNames P :=
  forall_mem_cons.mpr ⟨hfunction, h⟩

theorem AllNames.apply (h : realisation.AllNames P) {type : Ty} (htype : type.AllNames P) :
    (realisation.apply type).AllNames P := by
  refine htype.mapCons fun head arguments harguments => ?_
  split
  · rename_i function hfound
    obtain ⟨before, after, hsplit, _⟩ := lookup_eq_some_iff.mp hfound
    have hmem : ((head.name, head.id), function) ∈ realisation := by simp [hsplit]
    exact (h _ hmem).apply harguments
  · exact allNames_con.mpr harguments

end Realisation

theorem Elab.Realised.allNames_empty : Realised.AllNames P {} :=
  ⟨by simp [Realisation.AllNames], by simp [Realisation.AllNames]⟩

theorem Elab.Realised.AllNames.imp (h : realised.AllNames P) (hP : ∀ name, P name → P' name) :
    realised.AllNames P' :=
  ⟨h.checked.imp hP, h.shown.imp hP⟩

end Kinds

variable {implemented specified : StaticBasis}

namespace Hygiene

variable {hygiene : Hygiene} {bound : hygiene.Stage} {scope : Scope}

theorem realised_later {later : hygiene.Stage} (hle : bound ≤ later)
    (h : realised.AllNames (hygiene.names bound)) : realised.AllNames (hygiene.names later) :=
  h.imp fun _ => mono hle

def TypesRealised (hygiene : Hygiene) (next : hygiene.Stage)
    (result : Table TypeInfo × Realised) : Prop :=
  (∀ entry ∈ result.1, entry.2.type.AllNames (hygiene.names next)) ∧
    result.2.AllNames (hygiene.names next)

def StructuresRealised (hygiene : Hygiene) (next : hygiene.Stage)
    (result : Table StaticBasis × Realised) : Prop :=
  (∀ entry ∈ result.1, entry.2.AllNames (hygiene.names next)) ∧
    result.2.AllNames (hygiene.names next)

def BasisRealised (hygiene : Hygiene) (next : hygiene.Stage)
    (result : StaticBasis × Realised) : Prop :=
  result.1.AllNames (hygiene.names next) ∧ result.2.AllNames (hygiene.names next)

theorem TypesRealised.later {later : hygiene.Stage} {result}
    (h : hygiene.TypesRealised bound result) (hle : bound ≤ later) :
    hygiene.TypesRealised later result :=
  ⟨types_later hle h.1, realised_later hle h.2⟩

theorem StructuresRealised.later {later : hygiene.Stage} {result}
    (h : hygiene.StructuresRealised bound result) (hle : bound ≤ later) :
    hygiene.StructuresRealised later result :=
  ⟨structures_later hle h.1, realised_later hle h.2⟩

section Matching

variable (span : Span)

/-! ## Types that the signature leaves abstract -/

theorem keeps_checkEquality (name : String) (specified : TypeInfo) (function : TypeFunction) :
    hygiene.Keeps bound (checkEquality scope span name specified function) := by
  unfold checkEquality
  refine .ite (fun _ => ?_) fun _ => .pure fun _ _ => trivial
  refine (keeps_look _).bind fun _ _ _ _ => ?_
  split
  · exact .pure fun _ _ => trivial
  · exact keeps_failAt _ _
  · exact keeps_failAt _ _

theorem keeps_checkConstructors (name : String) (specified implemented : TypeInfo) :
    hygiene.Keeps bound (checkConstructors span name specified implemented) := by
  refine .discard (.forIn fun _ _ _ _ => ?_)
  exact .guarded (keeps_failAt _ _) fun _ _ => .pure fun _ _ => trivial

theorem ensures_matchAbstractType (hides : Bool) (path : List String) (name : String)
    {specified implemented : TypeInfo} (hspecified : specified.type.AllNames (hygiene.names bound))
    (himplemented : implemented.type.AllNames (hygiene.names bound))
    (hrealised : realised.AllNames (hygiene.names bound)) :
    hygiene.Ensures bound (fun later result => result.1.type.AllNames (hygiene.names later) ∧
        result.2.AllNames (hygiene.names later))
      (matchAbstractType scope span hides path name specified implemented realised) := by
  have hfunction := TypeFunction.allNames_ofInfo himplemented
  have hchecked := hrealised.checked.insert name specified.id hfunction
  unfold matchAbstractType
  refine (keeps_checkEquality span _ _ _).bind fun first hfirst _ _ => ?_
  refine (keeps_checkConstructors span _ _ _).bind fun second hsecond _ _ => ?_
  refine .ite (fun _ => .pure fun _ hle => ?_) fun _ => ?_
  · have hlast := (hfirst.trans hsecond).trans hle
    exact ⟨type_later hlast himplemented, realised_later hlast
      ⟨hchecked, hrealised.shown.insert name specified.id hfunction⟩⟩
  · refine (keeps_newTypeId _).bind_pure fun third hthird id _ => ?_
    have hlast := (hfirst.trans hsecond).trans hthird
    have hparameters := fun source hsource => mono hlast
      ((TypeFunction.allNames_ofInfo hspecified).parameters source hsource)
    have htype : (con { name, path, hidden := true, id }
        ((TypeFunction.ofInfo specified).parameters.map plain)).AllNames
          (hygiene.names third) := by
      refine allNames_con.mpr fun type htype => ?_
      obtain ⟨source, hsource, rfl⟩ := mem_map.mp htype
      exact allNames_plain.mpr (hparameters source hsource)
    have hkept := realised_later hlast hrealised
    exact ⟨htype, hchecked.imp fun _ => mono hlast,
      hkept.shown.insert name specified.id ⟨hparameters, htype⟩⟩

theorem ensures_matchAbstractTypes (hides : Bool) (path : List String)
    {implemented : Table TypeInfo}
    (himplemented : ∀ entry ∈ implemented, entry.2.type.AllNames (hygiene.names bound))
    (htypes : ∀ entry ∈ types, entry.2.type.AllNames (hygiene.names bound))
    {result : Table TypeInfo} (h : hygiene.TypesRealised bound (result, realised)) :
    hygiene.Ensures bound hygiene.TypesRealised
      (matchAbstractTypes scope span hides path implemented types result realised) := by
  induction types generalizing bound result realised with
  | nil =>
    exact .pure fun _ hle => h.later hle
  | cons entry types ih =>
    obtain ⟨hentry, hrest⟩ := forall_mem_cons.mp htypes
    rw [matchAbstractTypes]
    split
    · exact keeps_failAt _ _
    · rename_i info hinfo
      have hinfo := himplemented _ (mem_of_get? hinfo)
      refine .ite (fun _ => keeps_failAt _ _) fun _ =>
        .ite (fun _ => ih himplemented hrest h) fun _ => ?_
      refine (ensures_matchAbstractType span hides path _ hentry hinfo
        h.2).bind fun later hlater found hfound => ?_
      refine ih (types_later hlater himplemented) (types_later hlater hrest) ⟨?_, hfound.2⟩
      exact forall_mem_insert (K := fun info : TypeInfo => info.type.AllNames (hygiene.names later))
        (h.later hlater).1 hfound.1

theorem ensures_matchAbstract (hides : Bool) (path : List String)
    (hspecified : specified.AllNames (hygiene.names bound))
    (himplemented : implemented.AllNames (hygiene.names bound))
    (hrealised : realised.AllNames (hygiene.names bound)) :
    hygiene.Ensures bound hygiene.BasisRealised
      (matchAbstract scope span hides path implemented specified realised) := by
  induction specified using walk (fun entries => ∀ {bound : hygiene.Stage}
      (path) {implemented : Table StaticBasis} {realised},
      (∀ entry ∈ entries, entry.2.AllNames (hygiene.names bound)) →
      (∀ entry ∈ implemented, entry.2.AllNames (hygiene.names bound)) →
      realised.AllNames (hygiene.names bound) →
      hygiene.Ensures bound hygiene.StructuresRealised
        (matchAbstractIn scope span hides path implemented entries realised))
      generalizing bound path implemented realised with
  | basis _ _ _ _ _ ih =>
    obtain ⟨htypes, _, hstructures, _⟩ := allNames_iff.mp hspecified
    obtain ⟨htypes', _, hstructures', _⟩ := allNames_iff.mp himplemented
    refine (ensures_matchAbstractTypes span hides path htypes' htypes
      ⟨by simp, hrealised⟩).bind fun first hfirst result hresult => ?_
    refine (ih path (structures_later hfirst hstructures) (structures_later hfirst hstructures')
      hresult.2).bind_pure fun second hsecond found hfound => ⟨?_, hfound.2⟩
    exact allNames_iff.mpr ⟨(hresult.later hsecond).1, by simp, hfound.1, by simp, by simp⟩
  | nil path _ _ hrealised =>
    exact .pure fun _ hle => ⟨by simp, realised_later hle hrealised⟩
  | cons entry entries ih ihEntries path hentries himplemented hrealised =>
    obtain ⟨hentry, hrest⟩ := forall_mem_cons.mp hentries
    rw [matchAbstractIn]
    split
    · exact keeps_failAt _ _
    · rename_i basis hbasis
      refine (ih _ hentry (himplemented _ (mem_of_get? hbasis)) hrealised).bind
        fun first hfirst result hresult => ?_
      refine (ihEntries path (structures_later hfirst hrest) (structures_later hfirst himplemented)
        hresult.2).bind_pure fun second hsecond others hothers => ?_
      exact ⟨forall_mem_cons.mpr ⟨basis_later hsecond hresult.1, hothers.1⟩, hothers.2⟩

/-! ## Types that the signature defines -/

theorem ensures_matchDefinedTypes {implemented : Table TypeInfo}
    (himplemented : ∀ entry ∈ implemented, entry.2.type.AllNames (hygiene.names bound))
    {result : Table TypeInfo} (h : hygiene.TypesRealised bound (result, realised)) :
    hygiene.Ensures bound hygiene.TypesRealised
      (matchDefinedTypes scope span implemented types result realised) := by
  induction types generalizing bound result realised with
  | nil =>
    exact .pure fun _ hle => h.later hle
  | cons entry types ih =>
    rw [matchDefinedTypes]
    split
    · rename_i info _ hinfo
      have hinfo := himplemented _ (mem_of_get? hinfo)
      have hactual := TypeFunction.allNames_ofInfo hinfo
      refine .bind (.mapM (Q := fun _ _ => True) (fun _ _ _ _ _ => trivial)
        fun _ _ _ _ => givesType_fresh.keeps) fun first hfirst _ _ => ?_
      refine .bind .get fun second hsecond state _ => ?_
      have hle := hfirst.trans hsecond
      split
      · exact keeps_failAt _ _
      · refine ih (types_later hle himplemented) (TypesRealised.later ⟨?_, ?_, ?_⟩ hle)
        · exact forall_mem_insert (K := fun info : TypeInfo => info.type.AllNames
              (hygiene.names bound)) h.1 hinfo
        · exact h.2.checked.insert _ _ hactual
        · exact h.2.shown.insert _ _ hactual
    · exact ih himplemented h

theorem ensures_matchDefined (specified : StaticBasis) {result : StaticBasis}
    (himplemented : implemented.AllNames (hygiene.names bound))
    (hresult : result.AllNames (hygiene.names bound))
    (hrealised : realised.AllNames (hygiene.names bound)) :
    hygiene.Ensures bound hygiene.BasisRealised
      (matchDefined scope span implemented specified result realised) := by
  induction specified using walk (fun entries => ∀ {bound : hygiene.Stage}
      {implemented : Table StaticBasis} {result realised},
      (∀ entry ∈ implemented, entry.2.AllNames (hygiene.names bound)) →
      hygiene.StructuresRealised bound (result, realised) →
      hygiene.Ensures bound hygiene.StructuresRealised
        (matchDefinedIn scope span implemented entries result realised))
      generalizing bound implemented result realised with
  | basis _ _ _ _ _ ih =>
    obtain ⟨htypes', _, hstructures', _⟩ := allNames_iff.mp himplemented
    obtain ⟨htypes, hvalues, hstructures, hsignatures, hfunctors⟩ := allNames_iff.mp hresult
    refine (ensures_matchDefinedTypes span htypes' ⟨htypes, hrealised⟩).bind
      fun first hfirst found hfound => ?_
    refine (ih (structures_later hfirst hstructures') ⟨structures_later hfirst hstructures,
      hfound.2⟩).bind_pure fun second hsecond inner hinner => ⟨?_, hinner.2⟩
    have hkept := allNames_iff.mp (basis_later (hfirst.trans hsecond) hresult)
    exact allNames_iff.mpr ⟨(hfound.later hsecond).1, hkept.2.1, hinner.1, hkept.2.2.2⟩
  | nil _ h =>
    exact .pure fun _ hle => h.later hle
  | cons entry entries ih ihEntries himplemented h =>
    rw [matchDefinedIn]
    split
    · rename_i basis inner hbasis hinner
      refine (ih (himplemented _ (mem_of_get? hbasis)) (h.1 _ (mem_of_get? hinner))
        h.2).bind fun later hlater found hfound => ?_
      refine ihEntries (structures_later hlater himplemented) ⟨?_, hfound.2⟩
      exact forall_mem_insert (h.later hlater).1 hfound.1
    · exact ihEntries himplemented h

/-! ## Values -/

theorem keeps_matchValue (name : String) {specified implemented : Ty}
    (himplemented : implemented.AllNames (hygiene.names bound)) :
    hygiene.Keeps bound (matchValue scope span name specified implemented) := by
  unfold matchValue
  refine .bind (.mapM (Q := fun _ _ => True) (fun _ _ _ _ _ => trivial)
    fun binder _ _ _ => ?_) fun first hfirst _ _ => ?_
  · exact (ensures_freshNameLike _).bind_pure fun _ _ _ _ => trivial
  refine (givesType_instantiateScheme (type_later hfirst himplemented)).bind fun _ _ _ _ => ?_
  refine .bind .get fun _ _ state _ => ?_
  dsimp only
  split
  · exact keeps_failAt _ _
  · exact keeps_failAt _ _
  · split
    · exact .pure fun _ _ => trivial
    · exact keeps_failAt _ _
    · exact keeps_failAt _ _

theorem ensures_matchValuesOf {implemented : Table StaticValue}
    {values : List (String × StaticValue)} (hrealised : realised.AllNames (hygiene.names bound))
    (himplemented : ∀ entry ∈ implemented, entry.2.type.AllNames (hygiene.names bound))
    (hvalues : ∀ entry ∈ values, entry.2.type.AllNames (hygiene.names bound)) :
    hygiene.Ensures bound (fun later shown => ∀ entry ∈ shown,
        entry.2.type.AllNames (hygiene.names later))
      (matchValuesOf scope span realised implemented values) := by
  induction values generalizing bound with
  | nil =>
    exact .pure fun _ _ => by simp
  | cons entry values ih =>
    obtain ⟨hentry, hrest⟩ := forall_mem_cons.mp hvalues
    rw [matchValuesOf]
    split
    · exact keeps_failAt _ _
    · rename_i value hvalue
      refine .ite (fun _ => keeps_failAt _ _) fun _ => ?_
      refine (keeps_matchValue span _ (himplemented _ (mem_of_get? hvalue))).bind
        fun first hfirst _ _ => ?_
      refine (ih (realised_later hfirst hrealised)
        (types_later hfirst himplemented) (types_later hfirst hrest)).bind_pure
        fun second hsecond others hothers => ?_
      refine forall_mem_cons.mpr ⟨?_, hothers⟩
      exact type_later (hfirst.trans hsecond) (hrealised.shown.apply hentry)

theorem givesBasis_matchValues {result : StaticBasis}
    (hrealised : realised.AllNames (hygiene.names bound))
    (hspecified : specified.AllNames (hygiene.names bound))
    (himplemented : implemented.AllNames (hygiene.names bound))
    (hresult : result.AllNames (hygiene.names bound)) :
    hygiene.GivesBasis bound
      (matchValues scope span realised implemented specified result) := by
  induction specified using walk (fun entries => ∀ {bound : hygiene.Stage}
      {implemented result : Table StaticBasis}, realised.AllNames (hygiene.names bound) →
      (∀ entry ∈ entries, entry.2.AllNames (hygiene.names bound)) →
      (∀ entry ∈ implemented, entry.2.AllNames (hygiene.names bound)) →
      (∀ entry ∈ result, entry.2.AllNames (hygiene.names bound)) →
      hygiene.Ensures bound (fun later found => ∀ entry ∈ found,
          entry.2.AllNames (hygiene.names later))
        (matchValuesIn scope span realised implemented entries result))
      generalizing bound implemented result with
  | basis _ _ _ _ _ ih =>
    obtain ⟨_, hvalues, hstructures, _⟩ := allNames_iff.mp hspecified
    obtain ⟨_, hvalues', hstructures', _⟩ := allNames_iff.mp himplemented
    refine (ensures_matchValuesOf span hrealised hvalues'
      hvalues).bind fun first hfirst shown hshown => ?_
    have hfirstResult := allNames_iff.mp (basis_later hfirst hresult)
    refine (ih (realised_later hfirst hrealised) (structures_later hfirst hstructures)
      (structures_later hfirst hstructures') hfirstResult.2.2.1).bind_pure
      fun second hsecond inner hinner => ?_
    have hkept := allNames_iff.mp (basis_later (hfirst.trans hsecond) hresult)
    exact allNames_iff.mpr ⟨hkept.1, types_later hsecond hshown, hinner, hkept.2.2.2⟩
  | nil _ _ _ h =>
    exact .pure fun _ hle => structures_later hle h
  | cons entry entries ih ihEntries hrealised hentries himplemented h =>
    obtain ⟨hentry, hrest⟩ := forall_mem_cons.mp hentries
    rw [matchValuesIn]
    split
    · rename_i basis inner hbasis hinner
      refine (ih hrealised hentry (himplemented _ (mem_of_get? hbasis))
        (h _ (mem_of_get? hinner))).bind fun later hlater found hfound => ?_
      exact ihEntries (realised_later hlater hrealised) (structures_later hlater hrest)
        (structures_later hlater himplemented)
        (forall_mem_insert (structures_later hlater h) hfound)
    · exact ihEntries hrealised hrest himplemented h

end Matching

/-- The view that a signature gives has names of the structure and of the
signature, and so has what the signature's types are realised by. -/
theorem ensures_matchSignature (hscope : hygiene.Covers scope) (span : Span)
    (hides : Bool) (himplemented : implemented.AllNames (hygiene.names bound))
    (hspecified : specified.AllNames (hygiene.names bound)) :
    hygiene.Ensures bound (fun later result => result.1.AllNames (hygiene.names later) ∧
        result.2.AllNames (hygiene.names later))
      (matchSignature scope span hides implemented specified) := by
  unfold matchSignature
  refine (declares_nested hscope).bind fun first hfirst inner hinner => ?_
  refine .bind (keeps_write hinner.above fun _ hle => Frame.adds_installStatics
    (basis_later (hfirst.trans hle) himplemented)) fun second hsecond _ _ => ?_
  have hle := hfirst.trans hsecond
  refine (ensures_matchAbstract span hides [] (basis_later hle hspecified)
    (basis_later hle himplemented) Realised.allNames_empty).bind
    fun third hthird types htypes => ?_
  have hle := hle.trans hthird
  refine (ensures_matchDefined span specified (basis_later hle himplemented)
    htypes.1 htypes.2).bind fun fourth hfourth defined hdefined => ?_
  have hle := hle.trans hfourth
  refine (givesBasis_matchValues span hdefined.2
    (basis_later hle hspecified) (basis_later hle himplemented)
    hdefined.1).bind_pure fun _ hfifth result hresult => ?_
  exact ⟨hresult, (realised_later hfifth hdefined.2).checked⟩

end Hygiene

end Sml
