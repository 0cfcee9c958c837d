import Sml.Proofs.Hygiene

/-!
# Names in types, patterns and signatures

Types that are written give types with the names that their variables stand
for.  Declarations of types, specifications and the view that a signature
gives of a structure are put together from such types.
-/

namespace Sml

open Elab Frame List Spec StaticBasis Table Ty

variable {abbreviation : Abbreviation} {parameters : List String} {bindings : List DatBind}
  {basis : StaticBasis}

/-! ## Declared types applied to arguments -/

namespace Ty.AllNames

variable {P : String → Prop} {arguments : List Ty}
  (harguments : ∀ argument ∈ arguments, argument.AllNames P)
include harguments

theorem applyAbbreviation (h : abbreviation.body.AllNames P) :
    (Elab.applyAbbreviation abbreviation arguments).AllNames P := by
  refine h.substitute fun entry hentry => ?_
  obtain ⟨pair, hpair, hentry⟩ := mem_filterMap.mp (mem_of_mem_ofList hentry)
  obtain ⟨parameter, argument⟩ := pair
  dsimp only at hentry
  split at hentry
  · cases hentry
    exact harguments _ (of_mem_zip hpair).2
  · cases hentry

theorem applyType {info : TypeInfo} (h : info.type.AllNames P) :
    (Elab.applyType info arguments).AllNames P := by
  unfold Elab.applyType
  split
  · rename_i abbreviation habbreviation
    exact applyAbbreviation harguments (h.abbreviation? habbreviation).2
  · split
    · exact allNames_con.mpr harguments
    · exact h

end Ty.AllNames

/-! ## Types as written -/

namespace Elab

section TypeOf

variable {P : String → Prop} {types : LongName → Option TypeInfo} {meaning : String → Option String}

mutual

theorem allNames_typeOf (htypes : ∀ name info, types name = some info → info.type.AllNames P)
    (written : TypeExpr) (hmeaning : ∀ name ∈ written.typeVariables, ∀ new ∈ meaning name, P new) :
    Yields (Ty.AllNames P) (typeOf types meaning written) := by
  cases written with
  | var name span =>
    rw [typeOf]
    split
    · rename_i new hnew
      refine .ok (allNames_plain.mpr (hmeaning name ?_ new hnew))
      simp [TypeExpr.typeVariables]
    · exact .error _
  | record fields span =>
    refine (allNames_typeOfFields htypes span fields [] hmeaning (by simp)).bind ?_
    exact fun fields hfields => .ok (allNames_record.mpr hfields)
  | tuple elements span =>
    refine (allNames_typeOfList htypes elements hmeaning).bind ?_
    exact fun elements helements => .ok (allNames_tuple.mpr helements)
  | arrow parameter result span =>
    rw [TypeExpr.typeVariables, forall_mem_append] at hmeaning
    refine (allNames_typeOf htypes parameter hmeaning.1).bind fun _ hparameter => ?_
    refine (allNames_typeOf htypes result hmeaning.2).bind fun _ hresult => ?_
    exact .ok (allNames_arrow.mpr ⟨hparameter, hresult⟩)
  | con name arguments span =>
    refine (allNames_typeOfList htypes arguments hmeaning).bind fun arguments harguments => ?_
    split
    · exact .error _
    · rename_i info hinfo
      split
      · exact .ok (Ty.AllNames.applyType harguments (htypes name info hinfo))
      · exact .error _

theorem allNames_typeOfList (htypes : ∀ name info, types name = some info → info.type.AllNames P)
    (written : List TypeExpr)
    (hmeaning : ∀ name ∈ TypeExpr.typeVariablesOfList written, ∀ new ∈ meaning name, P new) :
    Yields (fun types => ∀ type ∈ types, Ty.AllNames P type)
      (typeOfList types meaning written) := by
  cases written with
  | nil =>
    exact .ok (by simp)
  | cons type rest =>
    rw [TypeExpr.typeVariablesOfList, forall_mem_append] at hmeaning
    refine (allNames_typeOf htypes type hmeaning.1).bind fun _ htype => ?_
    refine (allNames_typeOfList htypes rest hmeaning.2).bind fun _ hrest => ?_
    exact .ok (forall_mem_cons.mpr ⟨htype, hrest⟩)

theorem allNames_typeOfFields (htypes : ∀ name info, types name = some info → info.type.AllNames P)
    (span : Span) (written : List (String × TypeExpr)) (fields : Table Ty)
    (hmeaning : ∀ name ∈ TypeExpr.typeVariablesOfFields written, ∀ new ∈ meaning name, P new)
    (hfields : ∀ field ∈ fields, field.2.AllNames P) :
    Yields (fun fields => ∀ field ∈ fields, Ty.AllNames P field.2)
      (typeOfFields types meaning span written fields) := by
  cases written with
  | nil =>
    exact .ok hfields
  | cons entry rest =>
    obtain ⟨label, type⟩ := entry
    rw [TypeExpr.typeVariablesOfFields, forall_mem_append] at hmeaning
    refine (allNames_typeOf htypes type hmeaning.1).bind fun type htype => ?_
    split
    · exact .error _
    · exact allNames_typeOfFields htypes span rest _ hmeaning.2 (forall_mem_insert hfields htype)

end

end TypeOf

end Elab

variable {result : Scope}

namespace Hygiene

variable {hygiene : Hygiene} {bound : hygiene.Stage} {scope : Scope}

/-- The variables of a type that are taken as written are of the kind. -/
def Allows (hygiene : Hygiene) (written : TypeExpr) : VariableMode → Prop
  | .parameters names => ∀ name ∈ names, hygiene.written name
  | .explicit => True
  | .verbatim => written.WrittenWith hygiene.written

theorem givesType_type (hscope : hygiene.Covers scope) (mode : VariableMode)
    {written : TypeExpr} (hmode : hygiene.Allows written mode) :
    hygiene.GivesType bound (Elab.type scope mode written) := by
  refine .bind .get fun next _ state hstate => ?_
  obtain ⟨h, rfl⟩ := hstate
  dsimp only
  generalize hresult : Elab.typeOf _ _ written = result
  have hyields : Yields (Ty.AllNames (hygiene.names ⟨state⟩))
      result := by
    rw [← hresult]
    refine allNames_typeOf (fun _ _ hinfo =>
      Holds.staticType? h hscope hinfo) written fun name hname new hnew => ?_
    cases mode with
    | parameters names =>
      dsimp only at hnew
      split at hnew
      · cases hnew
        rename_i hcontains
        exact names_of_written (hmode name (by simpa using hcontains))
      · cases hnew
    | explicit =>
      obtain ⟨table, htable, hentry⟩ := exists_of_findSome?_eq_some hnew
      exact Holds.explicit h table htable _ (mem_of_get? hentry)
    | verbatim =>
      cases hnew
      exact names_of_written (hmode name hname)
  cases result with
  | ok type => exact .pure fun _ hle => type_later hle (hyields type rfl)
  | error error => exact .throw fun _ _ => trivial

/-! ## Patterns -/

def TypedBound (hygiene : Hygiene) (next : hygiene.Stage) (result : Ty × Bound) :
    Prop :=
  result.1.AllNames (hygiene.names next) ∧ ∀ entry ∈ result.2, entry.2.AllNames (hygiene.names next)

theorem givesFields_bindVariable {typed : Bound}
    (htyped : ∀ entry ∈ typed, entry.2.AllNames (hygiene.names bound)) (name : String) {type : Ty}
    (htype : type.AllNames (hygiene.names bound)) (span : Span) :
    hygiene.GivesFields bound (bindVariable typed name type span) := by
  refine .ite (fun _ => keeps_failAt _ _) fun _ => .pure fun _ hle => ?_
  refine types_later hle (forall_mem_append.mpr ⟨htyped, ?_⟩)
  simpa using htype

mutual

theorem ensures_patternFrom (hscope : hygiene.Covers scope) (pattern : Pat) {bound : hygiene.Stage}
    (typed : Bound) (htyped : ∀ entry ∈ typed, entry.2.AllNames (hygiene.names bound)) :
    hygiene.Ensures bound hygiene.TypedBound (patternFrom scope pattern typed) := by
  cases pattern with
  | wildcard span =>
    refine givesType_fresh.bind_pure fun _ hnext type htype => ?_
    exact ⟨htype, types_later hnext htyped⟩
  | const value span =>
    cases value with
    | int | string | char =>
      exact .pure fun _ hle => ⟨allNames_constant _, types_later hle htyped⟩
    | real => exact keeps_failAt _ _
  | name long span =>
    refine (ensures_value? hscope long).bind fun first hfirst found hfound => ?_
    split
    · rename_i value hvalue
      refine (givesType_instantiateScheme
        (hfound value (Option.filter_eq_some_iff.mp hvalue).1)).bind
        fun second hsecond type htype => ?_
      split
      · exact keeps_failAt _ _
      · exact .pure fun _ hle => ⟨type_later hle htype,
          types_later ((hfirst.trans hsecond).trans hle) htyped⟩
    · refine .ite (fun _ => ?_) fun _ => keeps_failAt _ _
      refine givesType_fresh.bind fun second hsecond type htype => ?_
      refine (givesFields_bindVariable (types_later (hfirst.trans hsecond) htyped) long.name htype
        span).bind_pure fun third hthird typed htyped => ⟨type_later hthird htype, htyped⟩
  | record fields complete span =>
    refine (ensures_patternFields hscope span fields [] typed (by simp)
      htyped).bind fun first hfirst result hresult => ?_
    refine .ite (fun _ => .pure fun _ hle => ?_) fun _ => ?_
    · exact ⟨allNames_record.mpr (types_later hle hresult.1), types_later hle hresult.2⟩
    · refine (givesType_freshRecord hresult.1 span).bind_pure
        fun second hsecond type htype => ?_
      exact ⟨htype, types_later hsecond hresult.2⟩
  | tuple elements span =>
    refine (ensures_patternList hscope elements typed htyped).bind_pure
      fun first hfirst result hresult => ?_
    refine ⟨?_, hresult.2⟩
    split
    · exact allNames_unit
    · exact allNames_tuple.mpr hresult.1
  | list elements span =>
    refine givesType_fresh.bind fun first hfirst element helement => ?_
    exact (ensures_patternElements hscope helement elements typed
      (types_later hfirst htyped)).bind_pure fun second hsecond typed htyped =>
        ⟨allNames_list.mpr (type_later hsecond helement), htyped⟩
  | con long argument span =>
    refine (ensures_value? hscope long).bind fun first hfirst found hfound => ?_
    split
    · exact keeps_failAt _ _
    · refine .ite (fun _ => ?_) fun _ => keeps_failAt _ _
      refine (givesType_instantiateScheme (hfound _ rfl)).bind fun second hsecond type htype => ?_
      refine (ensures_patternFrom hscope argument typed
        (types_later (hfirst.trans hsecond) htyped)).bind
        fun third hthird inner hinner => ?_
      refine givesType_fresh.bind fun fourth hfourth result hresult => ?_
      refine (givesType_unify hscope (type_later (hthird.trans hfourth) htype)
        (allNames_arrow.mpr ⟨type_later hfourth hinner.1, hresult⟩) _
        _).bind_pure fun fifth hfifth _ _ => ?_
      exact ⟨type_later hfifth hresult, types_later (hfourth.trans hfifth) hinner.2⟩
  | typed pattern annotation span =>
    refine (ensures_patternFrom hscope pattern typed htyped).bind
      fun first hfirst inner hinner => ?_
    refine (givesType_type hscope .explicit trivial).bind
      fun second hsecond annotation hannotation => ?_
    refine (givesType_unify hscope (type_later hsecond hinner.1) hannotation
      _ _).bind_pure fun third hthird type htype => ?_
    exact ⟨htype, types_later (hsecond.trans hthird) hinner.2⟩
  | layered name annotation pattern span =>
    refine (ensures_value? hscope _).bind fun first hfirst _ _ => ?_
    refine .ite (fun _ => keeps_failAt _ _) fun _ => ?_
    refine (ensures_patternFrom hscope pattern typed (types_later hfirst htyped)).bind
      fun second hsecond inner hinner => ?_
    have hbind : ∀ {next : hygiene.Stage} {type : Ty}, second ≤ next →
        type.AllNames (hygiene.names next) →
        hygiene.Ensures next hygiene.TypedBound (do
          return (type, ← bindVariable inner.2 name type span)) := by
      intro next type hnext htype
      refine (givesFields_bindVariable (types_later hnext hinner.2) name
        htype span).bind_pure fun last hlast typed htyped => ⟨type_later hlast htype, htyped⟩
    cases annotation with
    | none =>
      exact .bind (.pure fun _ hle => type_later hle hinner.1)
        fun _ hnext _ htype => hbind hnext htype
    | some annotation =>
      refine (givesType_type hscope .explicit trivial).bind
        fun third hthird annotation hannotation => ?_
      refine (givesType_unify hscope (type_later hthird hinner.1)
        hannotation _ _).bind fun fourth hfourth type htype => ?_
      exact hbind (hthird.trans hfourth) htype

theorem ensures_patternList (hscope : hygiene.Covers scope)
    (patterns : List Pat) {bound : hygiene.Stage} (typed : Bound)
    (htyped : ∀ entry ∈ typed, entry.2.AllNames (hygiene.names bound)) :
    hygiene.Ensures bound (fun later result =>
        (∀ type ∈ result.1, type.AllNames (hygiene.names later)) ∧
          ∀ entry ∈ result.2, entry.2.AllNames (hygiene.names later))
      (patternList scope patterns typed) := by
  cases patterns with
  | nil =>
    exact .pure fun _ hle => ⟨by simp, types_later hle htyped⟩
  | cons pattern rest =>
    refine (ensures_patternFrom hscope pattern typed htyped).bind
      fun first hfirst inner hinner => ?_
    refine (ensures_patternList hscope rest inner.2 hinner.2).bind_pure
      fun second hsecond result hresult => ?_
    exact ⟨forall_mem_cons.mpr ⟨type_later hsecond hinner.1, hresult.1⟩, hresult.2⟩

theorem ensures_patternElements (hscope : hygiene.Covers scope) {bound : hygiene.Stage}
    {element : Ty} (helement : element.AllNames (hygiene.names bound)) (patterns : List Pat)
    (typed : Bound) (htyped : ∀ entry ∈ typed, entry.2.AllNames (hygiene.names bound)) :
    hygiene.GivesFields bound (patternElements scope element patterns typed) := by
  cases patterns with
  | nil =>
    exact .pure fun _ hle => types_later hle htyped
  | cons pattern rest =>
    refine (ensures_patternFrom hscope pattern typed htyped).bind
      fun first hfirst inner hinner => ?_
    refine (givesType_unify hscope (type_later hfirst helement) hinner.1 _
      _).bind fun second hsecond _ _ => ?_
    exact ensures_patternElements hscope (type_later (hfirst.trans hsecond) helement) rest inner.2
      (types_later hsecond hinner.2)

theorem ensures_patternFields (hscope : hygiene.Covers scope) (span : Span)
    (patterns : List (String × Pat)) {bound : hygiene.Stage} (fields : Table Ty)
    (typed : Bound) (hfields : ∀ field ∈ fields, field.2.AllNames (hygiene.names bound))
    (htyped : ∀ entry ∈ typed, entry.2.AllNames (hygiene.names bound)) :
    hygiene.Ensures bound (fun later result =>
        (∀ field ∈ result.1, field.2.AllNames (hygiene.names later)) ∧
          ∀ entry ∈ result.2, entry.2.AllNames (hygiene.names later))
      (patternFields scope span patterns fields typed) := by
  cases patterns with
  | nil =>
    exact .pure fun _ hle => ⟨types_later hle hfields, types_later hle htyped⟩
  | cons entry rest =>
    obtain ⟨label, pattern⟩ := entry
    refine (ensures_patternFrom hscope pattern typed htyped).bind
      fun first hfirst inner hinner => ?_
    refine .ite (fun _ => keeps_failAt _ _) fun _ => ?_
    refine ensures_patternFields hscope span rest _ _ ?_ hinner.2
    exact forall_mem_insert (types_later hfirst hfields) hinner.1

end

theorem ensures_pattern (hscope : hygiene.Covers scope) (pattern : Pat) :
    hygiene.Ensures bound hygiene.TypedBound (Elab.pattern scope pattern) :=
  ensures_patternFrom hscope pattern [] (by simp)

/-! ## Declarations of types and exceptions -/

theorem allNames_parameterTypes (h : ∀ name ∈ parameters, hygiene.written name)
    (next : hygiene.Stage) :
    ∀ type ∈ parameterTypes parameters, type.AllNames (hygiene.names next) := by
  exact forall_mem_map.mpr fun type htype => allNames_plain.mpr (names_of_written (h type htype))

variable {P : String → Prop}

theorem allNames_ofAbbreviation (hparameters : ∀ type ∈ abbreviation.parameters, type.AllNames P)
    (hbody : abbreviation.body.AllNames P) :
    (TypeInfo.ofAbbreviation abbreviation).type.AllNames P :=
  allNames_arrow.mpr ⟨allNames_con.mpr hparameters, hbody⟩

theorem keeps_declareDatatypes (habove : result.StartsAbove hygiene.base)
    (h : ∀ binding ∈ bindings, ∀ name ∈ binding.parameters, hygiene.written name)
    (declared : List String) :
    hygiene.Ensures bound (fun _ entries => ∀ entry ∈ entries,
        ∀ name ∈ entry.1.parameters, hygiene.written name)
      (declareDatatypes result bindings declared) := by
  induction bindings generalizing bound declared with
  | nil =>
    exact .pure fun _ _ => by simp
  | cons binding bindings ih =>
    obtain ⟨hbinding, hbindings⟩ := forall_mem_cons.mp h
    refine (keeps_checkParameters _ _).bind fun _ _ _ _ => ?_
    refine .guarded (keeps_failAt _ _) fun _ _ => ?_
    refine (keeps_newTypeId _).bind fun next _ id _ => ?_
    refine .bind (keeps_writeType habove _ ?_) fun _ _ _ _ => ?_
    · exact allNames_con.mpr (allNames_parameterTypes hbinding next)
    · exact (ih hbindings _).bind_pure fun _ _ entries hentries =>
        forall_mem_cons.mpr ⟨hbinding, hentries⟩

theorem ensures_constructorEntries (hresult : hygiene.Covers result) {binding : DatBind}
    (hbinding : ∀ name ∈ binding.parameters, hygiene.written name)
    (head : TyCon) (constructors : List ConBind) (declared : List String) :
    hygiene.Ensures bound (fun later entries => ∀ entry ∈ entries,
        entry.scheme.AllNames (hygiene.names later))
      (constructorEntries result binding head constructors declared) := by
  induction constructors generalizing bound declared with
  | nil =>
    exact .pure fun _ _ => by simp
  | cons constructor constructors ih =>
    rw [constructorEntries]
    refine .guarded (keeps_failAt _ _) fun first _ => ?_
    have hargument : hygiene.Ensures first
        (fun later argument => ∀ type ∈ argument, Ty.AllNames (hygiene.names later) type)
        (constructor.argument.mapM (Elab.type result (.parameters binding.parameters))) := by
      cases constructor.argument with
      | none => exact .pure fun _ _ => by simp
      | some written =>
        refine .bind_pure (givesType_type hresult (.parameters _) hbinding)
          fun _ _ type htype => ?_
        simpa using htype
    refine hargument.bind fun second _ argument hargument => ?_
    refine (ih _).bind_pure fun third hthird others hothers => forall_mem_cons.mpr ⟨?_, hothers⟩
    have hown : (Ty.con head (parameterTypes binding.parameters)).AllNames (hygiene.names third) :=
      allNames_con.mpr (allNames_parameterTypes hbinding third)
    refine Ty.AllNames.quantify ?_ fun name hname => names_of_written (hbinding name hname)
    split
    · exact allNames_arrow.mpr ⟨type_later hthird (hargument _ rfl), hown⟩
    · exact hown

def GroupNames (hygiene : Hygiene) (next : hygiene.Stage)
    (group : List (DatBind × TyCon × List ConstructorEntry)) : Prop :=
  ∀ member ∈ group, (∀ name ∈ member.1.parameters, hygiene.written name) ∧
    ∀ entry ∈ member.2.2, entry.scheme.AllNames (hygiene.names next)

theorem ensures_groupEntries (hresult : hygiene.Covers result) {bindings : List (DatBind × TyCon)}
    (h : ∀ binding ∈ bindings, ∀ name ∈ binding.1.parameters, hygiene.written name)
    (declared : List String) :
    hygiene.Ensures bound hygiene.GroupNames (groupEntries result bindings declared) := by
  induction bindings generalizing bound declared with
  | nil =>
    exact .pure fun _ _ => by simp [GroupNames]
  | cons binding bindings ih =>
    obtain ⟨hbinding, hbindings⟩ := forall_mem_cons.mp h
    refine (ensures_constructorEntries hresult hbinding _ _ _).bind
      fun first _ entries hentries => ?_
    exact (ih hbindings _).bind_pure fun second hsecond others hothers =>
      forall_mem_cons.mpr ⟨⟨hbinding, types_later hsecond hentries⟩, hothers⟩

section Scope

variable (hscope : hygiene.Covers scope)
include hscope

theorem declares_typeBindings {bindings : List TypeBind}
    (h : ∀ binding ∈ bindings, ∀ name ∈ binding.parameters, hygiene.written name) :
    hygiene.Declares bound scope (typeBindings scope bindings) := by
  refine declares_nested_bind hscope fun first _ result hresult => ?_
  refine .returns (.forIn fun binding hbinding second _ => ?_)
  refine (keeps_checkParameters _ _).bind fun third _ _ _ => ?_
  refine (givesType_type hscope (.parameters _) (h binding hbinding)).bind
    fun fourth _ body hbody => ?_
  refine (keeps_newTypeId _).bind fun fifth hfifth id _ => ?_
  refine .discard (keeps_writeType hresult.above _ ?_)
  exact allNames_ofAbbreviation (allNames_parameterTypes (h binding hbinding) _)
    (type_later hfifth hbody)

theorem declares_datatypeBindings
    (h : ∀ binding ∈ bindings, ∀ name ∈ binding.parameters, hygiene.written name) :
    hygiene.Declares bound scope (datatypeBindings scope bindings) := by
  refine declares_nested_bind hscope fun _ _ result hresult => ?_
  refine (keeps_declareDatatypes hresult.above h _).bind fun _ _ declared hdeclared => ?_
  refine (ensures_groupEntries hresult.covers hdeclared _).bind fun first _ group hgroup => ?_
  refine (keeps_look _).bind fun second hsecond env _ => ?_
  dsimp only
  split
  case h_2 => exact keeps_failAt _ _
  refine .bind (.forIn fun entry hentry third _ => ?_)
    fun third hthird _ _ => .returns (.forIn fun entry hentry fourth hfourth => ?_)
  · obtain ⟨member, admits⟩ := entry
    have hmember := hgroup member (of_mem_zip hentry).1
    refine .discard (keeps_writeType hresult.above _ ?_)
    exact allNames_con.mpr (allNames_parameterTypes hmember.1 _)
  · refine .discard (.forIn fun constructor hconstructor fifth hfifth => ?_)
    refine .discard (keeps_writeValue hresult.above _ ?_)
    have hle := (hsecond.trans hthird).trans (hfourth.trans hfifth)
    exact type_later hle ((hgroup entry hentry).2 constructor hconstructor)

theorem declares_replicateDatatype (name : String) (target : LongName) (span : Span) :
    hygiene.Declares bound scope (replicateDatatype scope name target span) := by
  refine ensures_look_bind fun _ hholds hfirst => ?_
  split
  · exact keeps_failAt _ _
  · rename_i hfound
    refine Declares.after (declares_nested_bind hscope
      fun second hsecond result hresult => ?_) hfirst
    refine .bind (.forIn fun constructor _ later _ => ?_) fun third hthird _ _ => ?_
    · refine (ensures_value? hscope _).bind fun _ _ value hvalue => ?_
      split
      · exact .discard (keeps_writeValue hresult.above _ (hvalue _ rfl))
      · exact .pure fun _ _ => trivial
    · exact .returns (keeps_writeType hresult.above _
        (type_later (hsecond.trans hthird) (hholds.staticType? hscope hfound)))

theorem givesType_exceptionType (mode : VariableMode) {argument : Option TypeExpr}
    (h : ∀ written, hygiene.Allows written mode) :
    hygiene.GivesType bound (exceptionType scope mode argument) := by
  cases argument with
  | none => exact .pure fun _ _ => allNames_constant _
  | some written =>
    exact (givesType_type hscope mode (h written)).bind_pure fun _ _ type htype =>
      allNames_arrow.mpr ⟨htype, allNames_constant _⟩

theorem declares_exceptionBindings (bindings : List ExnBind) :
    hygiene.Declares bound scope (exceptionBindings scope bindings) := by
  refine declares_nested_bind hscope fun _ _ result hresult => ?_
  refine .returns (.forIn fun binding _ first _ => ?_)
  have hwrite : ∀ {next : hygiene.Stage} {type : Ty},
      type.AllNames (hygiene.names next) → hygiene.Keeps next (do
        write result (·.setStaticValue binding.name { type, status := .exception })
        return ForInStep.yield PUnit.unit) :=
    fun htype => .discard (keeps_writeValue hresult.above _ htype)
  cases binding with
  | new name argument span =>
    exact (givesType_exceptionType hscope .explicit fun _ => trivial).bind
      fun _ _ _ htype => hwrite htype
  | «alias» name target span =>
    refine (ensures_value? hscope target).bind fun _ _ found hfound => ?_
    split
    · refine .ite (fun _ => ?_) fun _ => keeps_failAt _ _
      exact .bind (.pure fun _ hle => type_later hle (hfound _ rfl)) fun _ _ _ htype => hwrite htype
    · exact keeps_failAt _ _

end Scope

/-! ## Signatures -/

theorem allNames_refineAt (span : Span) {f : StaticBasis → Except ElabError StaticBasis}
    (hf : ∀ basis, basis.AllNames P → Yields (StaticBasis.AllNames P) (f basis))
    (path : List String) (h : basis.AllNames P) :
    Yields (StaticBasis.AllNames P) (refineAt span f path basis) := by
  induction path generalizing basis with
  | nil => exact hf basis h
  | cons name rest ih =>
    rw [refineAt]
    split
    · exact .error _
    · rename_i inner hinner
      obtain ⟨htypes, hvalues, hstructures, hrest⟩ := allNames_iff.mp h
      refine (ih (hstructures _ (mem_of_get? hinner))).bind
        fun inner hinner => .ok (allNames_iff.mpr ?_)
      exact ⟨htypes, hvalues, forall_mem_insert hstructures hinner, hrest⟩

theorem allNames_defineType (span : Span)
    (hparameters : ∀ type ∈ parameterTypes parameters, type.AllNames P) (name : LongName)
    {body : Ty} (hbody : body.AllNames P) (h : basis.AllNames P) :
    Yields (StaticBasis.AllNames P) (defineType span parameters name body basis) := by
  unfold defineType
  split
  · exact .error _
  split
  · exact .error _
  split
  · exact .error _
  split
  · rename_i head _ _
    rw [allNames_iff] at h
    refine .ok (allNames_iff.mpr ⟨?_, h.2⟩)
    exact forall_mem_insert (K := fun info : TypeInfo => info.type.AllNames P) h.1
      (allNames_ofAbbreviation hparameters hbody)
  · exact .error _

mutual

theorem givesBasis_signature {scope : Scope} (hscope : hygiene.Covers scope)
    {bound : hygiene.Stage} (written : SigExp) (h : written.WrittenWith hygiene.written) :
    hygiene.GivesBasis bound (signature scope written) := by
  cases written with
  | sig specs span =>
    refine (declares_nested hscope).bind fun _ _ mark hmark => ?_
    refine (givesScope_specifications hmark.covers specs h).bind fun _ _ inner hinner => ?_
    exact ensures_look fun _ h _ => (h.changesSince hinner _).1
  | name name span =>
    refine ensures_look_bind fun _ hholds _ => ?_
    split
    · rename_i hfound
      exact .pure fun _ hle => basis_later hle (hholds.staticSignature? hscope hfound)
    · exact keeps_failAt _ _
  | whereType body parameters name definition span =>
    refine (givesBasis_signature hscope body h.1).bind fun _ _ basis hbasis => ?_
    refine (keeps_checkParameters _ _).bind fun second hsecond _ _ => ?_
    refine (givesType_type hscope (.parameters _) h.2).bind
      fun third hthird definition hdefinition => ?_
    have hrefined := allNames_refineAt span (fun _ hbasis =>
      allNames_defineType span (allNames_parameterTypes h.2 third) name
        hdefinition hbasis) name.path
      (basis_later (hsecond.trans hthird) hbasis)
    split
    · rename_i refined heq
      exact .pure fun _ hle => basis_later hle (hrefined refined heq)
    · exact .throw fun _ _ => trivial

theorem declares_specification {scope : Scope} (hscope : hygiene.Covers scope)
    {bound : hygiene.Stage} (spec : Spec) (h : spec.WrittenWith hygiene.written) :
    hygiene.Declares bound scope (specification scope spec) := by
  -- What is specified is written to a frame of its own.
  have hwrite : ∀ {first next : hygiene.Stage} {f : Frame → Frame},
      first ≤ next → (∀ later, next ≤ later → Adds (hygiene.names later) f) →
      hygiene.Ensures next (hygiene.Opened scope first) (do
        let result ← nested scope
        write result f
        return result) := by
    intro first next f hfirst hf
    refine Declares.after (declares_nested_bind hscope fun later hlater result hresult => ?_) hfirst
    exact .returns (keeps_write hresult.above fun _ hle => hf _ (hlater.trans hle))
  cases spec with
  | val name written span =>
    refine (givesType_type hscope .verbatim h).bind fun _ hnext type htype =>
      hwrite hnext fun _ hle => adds_setStaticValue _ (type_later hle ?_)
    exact htype.quantify htype.variableNames
  | type parameters name definition equality span =>
    refine (keeps_checkParameters _ _).bind fun _ hfirst _ _ => ?_
    refine (keeps_newTypeId _).bind fun _ hsecond id _ => ?_
    have hnext := hfirst.trans hsecond
    cases definition with
    | none =>
      refine .bind (.pure (P := fun later (info : TypeInfo) =>
        info.type.AllNames (hygiene.names later)) fun later _ => ?_)
        fun _ hthird _ hinfo => hwrite (hnext.trans hthird) fun _ hle =>
          adds_setStaticType _ (type_later hle hinfo)
      exact allNames_con.mpr (allNames_parameterTypes h later)
    | some written =>
      refine (givesType_type hscope (.parameters _) h).bind fun _ hthird body hbody => ?_
      refine .bind (.pure (P := fun later (info : TypeInfo) =>
        info.type.AllNames (hygiene.names later)) fun later hle => ?_)
        fun _ hfourth _ hinfo => hwrite (hnext.trans (hthird.trans hfourth)) fun _ hle =>
            adds_setStaticType _ (type_later hle hinfo)
      exact allNames_ofAbbreviation (allNames_parameterTypes h later) (type_later hle hbody)
  | datatypes bindings span =>
    exact declares_datatypeBindings hscope h
  | replicate name target span =>
    exact declares_replicateDatatype hscope name target span
  | exn name argument span =>
    exact (givesType_exceptionType hscope (.parameters [])
      fun _ => by simp [Allows]).bind fun _ hnext type htype =>
        hwrite hnext fun _ hle => adds_setStaticValue _ (type_later hle htype)
  | substructure name body span =>
    exact (givesBasis_signature hscope body h).bind fun _ hnext basis hbasis =>
      hwrite hnext fun _ hle => adds_setStaticStructure _ ((basis_later hle hbasis).qualify _)
  | included body span =>
    exact (givesBasis_signature hscope body h).bind fun _ hnext basis hbasis =>
      hwrite hnext fun _ hle => adds_installStatics (basis_later hle hbasis)

theorem givesScope_specifications {scope : Scope} (hscope : hygiene.Covers scope)
    {bound : hygiene.Stage} (specs : List Spec) (h : AllWrittenWith hygiene.written specs) :
    hygiene.GivesScope bound (specifications scope specs) := by
  cases specs with
  | nil =>
    exact .pure fun _ _ => hscope
  | cons spec rest =>
    exact (declares_specification hscope spec h.1).givesScope.bind
      fun _ _ scope hscope => givesScope_specifications hscope rest h.2

end

end Hygiene

end Sml
