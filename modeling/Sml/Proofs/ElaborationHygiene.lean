import Sml.Proofs.MatchingHygiene

/-!
# Names in elaboration

The rules for expressions, structures and declarations bring in no names but
those that are fresh or written, and no values for evaluation but those that
are in the frames they copy.  They write only to frames that they have made.
So it is for whole programs.
-/

namespace Sml

open Decl Elab Frame Hygiene List Ty

structure Inner.KeepsTo (inner : Inner) (hygiene : Hygiene) : Prop where
  expr : ∀ {scope expr bound}, hygiene.Covers scope → expr.WrittenWith hygiene.written →
    hygiene.GivesType bound (inner.expr scope expr)
  decl : ∀ {scope declaration bound}, hygiene.Covers scope →
    declaration.WrittenWith hygiene.written →
    hygiene.GivesScope bound (inner.decl scope declaration)
  str : ∀ {scope body bound}, hygiene.Covers scope → body.WrittenWith hygiene.written →
    hygiene.GivesBasis bound (inner.str scope body)

variable {bindings : List (ValBind Expr)} {declaration : Decl}
variable {argument : StrExp} {members : List Member} {action : Elab Scope}

namespace Hygiene

variable {hygiene : Hygiene} {bound : hygiene.Stage} {inner : Inner}
  (hinner : inner.KeepsTo hygiene) {scope : Scope}
  (hscope : hygiene.Covers scope)
include hinner hscope

/-! ## Expressions -/

theorem givesType_matchType {rules : Match Expr}
    (h : ∀ rule ∈ rules.rules, rule.body.WrittenWith hygiene.written) :
    hygiene.GivesType bound (matchType inner scope rules) := by
  unfold matchType
  refine givesType_fresh.bind fun first _ parameter hparameter => ?_
  refine givesType_fresh.bind fun second hsecond result hresult => ?_
  refine .bind_pure (.forIn fun rule hrule third hthird => ?_)
    fun _ hlast _ _ => allNames_arrow.mpr
      ⟨type_later (hsecond.trans hlast) hparameter, type_later hlast hresult⟩
  refine (ensures_pattern hscope rule.pattern).bind fun fourth hfourth found hfound => ?_
  refine (givesType_unify hscope
    (type_later (hsecond.trans (hthird.trans hfourth)) hparameter) hfound.1 _
    _).bind fun fifth hfifth _ _ => ?_
  refine (declares_nested hscope).bind fun sixth hsixth body hbody => ?_
  refine .bind (.forIn fun entry hentry _ hle => (keeps_writeValue hbody.above _
    (type_later (hfifth.trans (hsixth.trans hle))
      (hfound.2 entry hentry))).discard) fun seventh hseventh _ _ => ?_
  have hle := (hfifth.trans hsixth).trans hseventh
  refine (ensures_withMonomorphic (lasting_type hygiene)
    (fun _ _ => hinner.expr hbody.covers (h rule hrule))
    (by simpa using type_later hle hfound.1)).bind
    fun eighth heighth bodyType hbodyType => ?_
  exact (givesType_unify hscope (type_later
    ((hthird.trans hfourth).trans (hle.trans heighth)) hresult) hbodyType _
    _).discard

theorem givesFields_recordFields (span : Span) {exprs : List (String × Expr)}
    (h : ∀ field ∈ exprs, field.2.WrittenWith hygiene.written) {fields : Table Ty}
    (hfields : ∀ field ∈ fields, field.2.AllNames (hygiene.names bound)) :
    hygiene.GivesFields bound (recordFields inner scope span exprs fields) := by
  induction exprs generalizing bound fields with
  | nil =>
    exact .pure fun _ hle => types_later hle hfields
  | cons entry exprs ih =>
    obtain ⟨hentry, hrest⟩ := forall_mem_cons.mp h
    refine (hinner.expr hscope hentry).bind fun _ hnext type htype => ?_
    refine .ite (fun _ => keeps_failAt _ _) fun _ => ih hrest ?_
    exact Table.forall_mem_insert (types_later hnext hfields) htype

theorem keeps_boolean (context : ClashContext) {expr : Expr}
    (h : expr.WrittenWith hygiene.written) :
    hygiene.Keeps bound (boolean inner scope context expr) := by
  refine (hinner.expr hscope h).bind fun _ _ type htype => ?_
  exact (givesType_unify hscope htype (allNames_constant _) _ _).discard

theorem givesType_exprRule {expr : Expr} (h : expr.WrittenWith hygiene.written) :
    hygiene.GivesType bound (exprRule inner scope expr) := by
  cases expr with
  | const value span =>
    refine .pure fun _ _ => ?_
    cases value <;> exact allNames_constant _
  | name long span =>
    refine (ensures_value? hscope long).bind fun _ _ found hfound => ?_
    split
    · exact keeps_failAt _ _
    · have hvalue := hfound _ rfl
      exact .ite (fun _ => .pure fun _ hle => type_later hle hvalue)
        fun _ => givesType_instantiateScheme hvalue
  | record fields span =>
    rw [Expr.WrittenWith, Expr.fieldsWrittenWith_iff] at h
    refine (givesFields_recordFields hinner hscope span h (by simp)).bind_pure
      fun _ _ fields hfields => ?_
    exact allNames_record.mpr hfields
  | tuple elements span =>
    rw [Expr.WrittenWith, Expr.allWrittenWith_iff] at h
    refine .bind_pure (.mapM (lasting_type hygiene) fun expr hexpr _ _ =>
      hinner.expr hscope (h expr hexpr)) fun _ _ types htypes => ?_
    split
    · exact allNames_unit
    · exact allNames_tuple.mpr htypes
  | list elements span =>
    rw [Expr.WrittenWith, Expr.allWrittenWith_iff] at h
    refine givesType_fresh.bind fun first _ element helement => ?_
    refine .bind_pure (.forIn fun expr hexpr second hsecond => ?_)
      fun _ hlast _ _ => allNames_list.mpr (type_later hlast helement)
    refine (hinner.expr hscope (h expr hexpr)).bind fun third hthird type htype => ?_
    exact (givesType_unify hscope (type_later (hsecond.trans hthird) helement) htype _ _).discard
  | selector label span =>
    refine givesType_fresh.bind fun _ _ field hfield => ?_
    refine (givesType_freshRecord (by simpa using hfield) _).bind_pure
      fun _ hnext row hrow => ?_
    exact allNames_arrow.mpr ⟨hrow, type_later hnext hfield⟩
  | app function argument span =>
    refine (hinner.expr hscope h.1).bind fun _ _ function hfunction => ?_
    refine (hinner.expr hscope h.2).bind fun _ hsecond argument hargument => ?_
    refine givesType_fresh.bind fun _ hthird result hresult => ?_
    refine (givesType_unify hscope (type_later (hsecond.trans hthird) hfunction)
      (allNames_arrow.mpr ⟨type_later hthird hargument, hresult⟩) _
      _).bind_pure fun _ hfourth _ _ => ?_
    exact type_later hfourth hresult
  | typed body annotation span =>
    rw [Expr.WrittenWith] at h
    refine (hinner.expr hscope h).bind fun _ _ body hbody => ?_
    refine (givesType_type hscope .explicit trivial).bind fun _ hnext annotation hannotation => ?_
    exact givesType_unify hscope (type_later hnext hbody) hannotation _ _
  | andAlso | orElse =>
    refine (keeps_boolean hinner hscope _ h.1).bind fun _ _ _ _ => ?_
    exact (keeps_boolean hinner hscope _ h.2).bind_pure fun _ _ _ _ => allNames_constant _
  | cond test yes no span =>
    refine (keeps_boolean hinner hscope _ h.1).bind fun _ _ _ _ => ?_
    refine (hinner.expr hscope h.2.1).bind fun _ _ yes hyes => ?_
    refine (hinner.expr hscope h.2.2).bind fun _ hnext no hno => ?_
    exact givesType_unify hscope (type_later hnext hyes) hno _ _
  | caseOf scrutinee rules span =>
    obtain ⟨rules, rulesSpan⟩ := rules
    rw [Expr.WrittenWith, Expr.rulesWrittenWith_iff] at h
    refine (hinner.expr hscope h.1).bind fun _ _ scrutinee hscrutinee => ?_
    refine (givesType_matchType hinner hscope h.2).bind fun _ hsecond rules hrules => ?_
    refine givesType_fresh.bind fun _ hthird result hresult => ?_
    refine (givesType_unify hscope (type_later hthird hrules) (allNames_arrow.mpr
        ⟨type_later (hsecond.trans hthird) hscrutinee, hresult⟩) _ _).bind_pure
      fun _ hfourth _ _ => ?_
    exact type_later hfourth hresult
  | fn rules span =>
    obtain ⟨rules, rulesSpan⟩ := rules
    rw [Expr.WrittenWith, Expr.rulesWrittenWith_iff] at h
    exact givesType_matchType hinner hscope h
  | letIn declaration body span =>
    refine ensures_keepingMonomorphic (lasting_type hygiene) fun _ _ => ?_
    exact (hinner.decl hscope h.1).bind fun _ _ within hwithin => hinner.expr hwithin h.2
  | raise exn span =>
    rw [Expr.WrittenWith] at h
    refine (hinner.expr hscope h).bind fun _ _ type htype => ?_
    exact (givesType_unify hscope htype (allNames_constant _) _ _).bind
      fun _ _ _ _ => givesType_fresh
  | handle body rules span =>
    obtain ⟨rules, rulesSpan⟩ := rules
    rw [Expr.WrittenWith, Expr.rulesWrittenWith_iff] at h
    refine (hinner.expr hscope h.1).bind fun _ _ body hbody => ?_
    refine (givesType_matchType hinner hscope h.2).bind fun _ hsecond handler hhandler => ?_
    refine (givesType_unify hscope hhandler (allNames_arrow.mpr
      ⟨allNames_constant _, type_later hsecond hbody⟩) _ _).bind_pure
      fun _ hthird _ _ => ?_
    exact type_later (hsecond.trans hthird) hbody
  | seq expressions span =>
    rw [Expr.WrittenWith, Expr.allWrittenWith_iff] at h
    exact .foldlM (lasting_type hygiene) allNames_unit fun expr hexpr _ _ _ _ =>
      hinner.expr hscope (h expr hexpr)
  | loop test body span =>
    refine (keeps_boolean hinner hscope _ h.1).bind fun _ _ _ _ => ?_
    exact (hinner.expr hscope h.2).bind_pure fun _ _ _ _ => allNames_unit

/-! ## Structures -/

theorem ensures_realiseArgument {functor : StaticFunctor}
    (hparameter : functor.parameter.AllNames (hygiene.names bound))
    (h : argument.WrittenWith hygiene.written) (span : Span) :
    hygiene.Ensures bound (fun later realisation => realisation.AllNames (hygiene.names later))
      (realiseArgument inner scope functor argument span) := by
  refine (hinner.str hscope h).bind fun _ hnext argument hargument => ?_
  exact (ensures_matchSignature hscope span false hargument
    (basis_later hnext hparameter)).bind_pure fun _ _ result hresult => hresult.2

omit hinner hscope in
theorem keeps_renumber (types : List (String × Nat)) : hygiene.Keeps bound (renumber types) := by
  refine .foldlM (fun _ _ _ _ _ => trivial) trivial fun _ _ _ _ _ _ => ?_
  exact (keeps_newTypeId _).bind_pure fun _ _ _ _ => trivial

theorem givesBasis_applyFunctor (name : String) (h : argument.WrittenWith hygiene.written)
    (span : Span) : hygiene.GivesBasis bound (applyFunctor inner scope name argument span) := by
  refine ensures_look_bind fun _ hholds _ => ?_
  split
  · exact keeps_failAt _ _
  · rename_i hfound
    obtain ⟨hparameter, hbody⟩ := hholds.staticFunctor? hscope hfound
    refine (ensures_realiseArgument hinner hscope hparameter h span).bind
      fun second hsecond realisation hrealisation => ?_
    refine (keeps_renumber _).bind_pure fun third hthird numbers _ => ?_
    refine (basis_later (hsecond.trans hthird) hbody).mapTypes fun type htype => ?_
    have hrealised := (hrealisation.imp fun _ => mono hthird).apply htype
    refine hrealised.mapCons fun head arguments harguments => ?_
    split <;> exact allNames_con.mpr harguments

theorem givesBasis_structureRule {body : StrExp} (h : body.WrittenWith hygiene.written) :
    hygiene.GivesBasis bound (structureRule inner scope body) := by
  cases body with
  | body declaration span =>
    refine (declares_nested hscope).bind fun _ _ mark hmark => ?_
    refine (hinner.decl hmark.covers h).bind fun _ _ within hwithin => ?_
    refine ensures_look_bind fun _ hholds _ => ?_
    exact givesBasis_resolveBasis hwithin (fun htype => htype) (hholds.changesSince hwithin _).1
  | name long span =>
    refine ensures_look_bind fun _ hholds _ => ?_
    split
    · rename_i hfound
      exact .pure fun _ hle => basis_later hle (hholds.staticStructure? hscope hfound)
    · exact keeps_failAt _ _
  | ascribed hides body specified span =>
    refine (hinner.str hscope h.1).bind fun _ _ basis hbasis => ?_
    refine (givesBasis_signature hscope specified h.2).bind fun _ hnext specified hspecified => ?_
    exact (ensures_matchSignature hscope span hides
      (basis_later hnext hbasis) hspecified).bind_pure fun _ _ result hresult => hresult.1
  | apply functor argument span =>
    rw [StrExp.WrittenWith] at h
    exact givesBasis_applyFunctor hinner hscope functor h span
  | letIn declaration body span =>
    refine (declares_nested hscope).bind fun _ _ mark hmark => ?_
    exact (hinner.decl hmark.covers h.1).bind fun _ _ within hwithin => hinner.str hwithin h.2

theorem declares_structureBindings {bindings : List (StrBind StrExp)}
    (h : ∀ binding ∈ bindings, binding.body.WrittenWith hygiene.written) :
    hygiene.Declares bound scope (structureBindings inner scope bindings) := by
  refine declares_nested_bind hscope fun _ _ result hresult => ?_
  refine .returns (.forIn fun binding hbinding _ _ => ?_)
  refine (hinner.str hscope (h binding hbinding)).bind fun _ _ basis hbasis => ?_
  exact (keeps_write hresult.above fun _ hle => adds_setStaticStructure _
    ((basis_later hle hbasis).qualify _)).discard

omit hinner in
theorem declares_signatureBindings {bindings : List SigBind}
    (h : ∀ binding ∈ bindings, binding.body.WrittenWith hygiene.written) :
    hygiene.Declares bound scope (signatureBindings scope bindings) := by
  refine declares_nested_bind hscope fun _ _ result hresult => ?_
  refine .returns (.forIn fun binding hbinding _ _ => ?_)
  refine (givesBasis_signature hscope binding.body (h binding hbinding)).bind
    fun _ _ basis hbasis => ?_
  exact (keeps_write hresult.above fun _ hle => adds_setStaticSignature _
    (basis_later hle hbasis)).discard

theorem ensures_functorOf {binding : FunctorBind StrExp}
    (h : binding.body.WrittenWith hygiene.written) {parameter : StaticBasis}
    (hparameter : parameter.AllNames (hygiene.names bound)) :
    hygiene.Ensures bound (fun later functor => functor.parameter.AllNames (hygiene.names later) ∧
        functor.body.AllNames (hygiene.names later))
      (functorOf inner scope binding parameter) := by
  refine (keeps_look _).bind fun first hfirst before _ => ?_
  refine (declares_nested hscope).bind fun second hsecond within hwithin => ?_
  have hnext := hfirst.trans hsecond
  refine .bind (keeps_write hwithin.above fun _ hle => adds_setStaticStructure _
    ((basis_later (hnext.trans hle) hparameter).qualify _))
    fun third hthird _ _ => ?_
  refine (hinner.str hwithin.covers h).bind_pure fun fourth hfourth body hbody => ⟨?_, hbody⟩
  exact basis_later ((hnext.trans hthird).trans hfourth) hparameter

theorem declares_functorBindings {bindings : List (FunctorBind StrExp)} (h : ∀ binding ∈ bindings,
      binding.parameter.WrittenWith hygiene.written ∧ binding.body.WrittenWith hygiene.written) :
    hygiene.Declares bound scope (functorBindings inner scope bindings) := by
  refine declares_nested_bind hscope fun _ _ result hresult => ?_
  refine .returns (.forIn fun binding hbinding _ _ => ?_)
  obtain ⟨hparameter, hbody⟩ := h binding hbinding
  refine (givesBasis_signature hscope binding.parameter hparameter).bind
    fun _ _ parameter hparameter => ?_
  refine (ensures_functorOf hinner hscope hbody hparameter).bind fun _ _ functor hfunctor => ?_
  exact (keeps_write hresult.above fun _ hle => adds_setStaticFunctor _
    (basis_later hle hfunctor.1) (basis_later hle hfunctor.2)).discard

/-! ## Values -/

omit hinner hscope in
variable (hygiene) in
theorem lasting_pending : Invariant.Lasting fun next
    (pending : List PendingValue) => ∀ value ∈ pending,
      value.type.AllNames (hygiene.names next) :=
  fun _ _ _ hle h value hvalue => type_later hle (h value hvalue)

theorem ensures_pendingValues (span : Span)
    (h : ∀ binding ∈ bindings, binding.body.WrittenWith hygiene.written)
    {pending : List PendingValue}
    (hpending : ∀ value ∈ pending, value.type.AllNames (hygiene.names bound)) :
    hygiene.Ensures bound (fun later pending => ∀ value ∈ pending,
        value.type.AllNames (hygiene.names later))
      (pendingValues inner scope span bindings pending) := by
  induction bindings generalizing bound pending with
  | nil =>
    exact .pure fun _ hle => lasting_pending hygiene _ _ _ hle hpending
  | cons binding bindings ih =>
    obtain ⟨hbinding, hrest⟩ := forall_mem_cons.mp h
    refine (ensures_inBinding (lasting_type hygiene) fun _ _ => hinner.expr hscope hbinding).bind
      fun first hfirst body hbody => ?_
    refine (ensures_pattern hscope binding.pattern).bind fun second hsecond found hfound => ?_
    refine (givesType_unify hscope hfound.1 (type_later hsecond hbody) _
      _).bind fun third hthird _ _ => ?_
    refine (keeps_look _).bind fun fourth hfourth expansive _ => ?_
    have hle := hthird.trans hfourth
    refine .bind (.foldlM (lasting_pending hygiene) (lasting_pending hygiene _ _ _
      ((hfirst.trans hsecond).trans hle) hpending)
      fun entry hentry later hlater pending hpending => ?_)
      fun _ _ pending hpending => ih hrest hpending
    refine .ite (fun _ => keeps_failAt _ _) fun _ => .pure fun _ hlast => ?_
    refine lasting_pending hygiene _ _ _ hlast (forall_mem_append.mpr ⟨hpending, ?_⟩)
    simpa using type_later (hle.trans hlater) (hfound.2 entry hentry)

theorem declares_valueBindings (span : Span)
    (h : ∀ binding ∈ bindings, binding.body.WrittenWith hygiene.written) :
    hygiene.Declares bound scope (valueBindings inner scope span bindings) := by
  refine (ensures_pendingValues hinner hscope span h (by simp)).bind
    fun first hfirst pending hpending => ?_
  refine Declares.after (declares_nested_bind hscope fun second hsecond result hresult => ?_) hfirst
  refine (ensures_outsideExplicit (lasting_fields hygiene)
    fun third hthird => .mapM (lasting_field hygiene) fun value hvalue later hlater => ?_).bind
    fun _ _ schemes hschemes => ?_
  · exact (givesType_generalize hscope (type_later
      (hsecond.trans (hthird.trans hlater)) (hpending value hvalue)) _ _).bind_pure
      fun _ _ type htype => htype
  · refine .returns (.forIn fun entry hentry _ hle => ?_)
    exact (keeps_writeValue hresult.above _ (type_later hle (hschemes entry hentry))).discard

omit hinner hscope in
theorem keeps_recursiveMembers
    (h : ∀ binding ∈ bindings, binding.body.WrittenWith hygiene.written) :
    hygiene.Ensures bound (fun _ members => ∀ member ∈ members,
        member.body.WrittenWith hygiene.written)
      (recursiveMembers scope bindings) := by
  induction bindings generalizing bound with
  | nil =>
    exact .pure fun _ _ => by simp
  | cons binding bindings ih =>
    obtain ⟨hbinding, hrest⟩ := forall_mem_cons.mp h
    rw [recursiveMembers]
    split
    · exact keeps_failAt _ _
    · refine (keeps_look _).bind fun _ _ _ _ => ?_
      refine .ite (fun _ => keeps_failAt _ _) fun _ => .ite (fun _ => keeps_failAt _ _) fun _ => ?_
      exact (ih hrest).bind_pure fun _ _ members hmembers =>
        forall_mem_cons.mpr ⟨hbinding, hmembers⟩

def MembersTyped (hygiene : Hygiene) (next : hygiene.Stage)
    (members : List (Member × Ty)) : Prop :=
  ∀ member ∈ members, member.1.body.WrittenWith hygiene.written ∧
    member.2.AllNames (hygiene.names next)

omit hinner hscope in
theorem ensures_declareMembers {group : Scope} (habove : group.StartsAbove hygiene.base)
    (h : ∀ member ∈ members, member.body.WrittenWith hygiene.written) (declared : List String) :
    hygiene.Ensures bound hygiene.MembersTyped (declareMembers group members declared) := by
  induction members generalizing bound declared with
  | nil =>
    exact .pure fun _ _ => by simp [MembersTyped]
  | cons member members ih =>
    obtain ⟨hmember, hrest⟩ := forall_mem_cons.mp h
    rw [declareMembers]
    refine .guarded (keeps_failAt _ _) fun _ _ => ?_
    refine givesType_fresh.bind fun _ _ type htype => ?_
    refine .bind (keeps_writeValue habove _ htype) fun _ hsecond _ _ => ?_
    exact (ih hrest _).bind_pure fun _ hthird others hothers =>
      forall_mem_cons.mpr ⟨⟨hmember, type_later (hsecond.trans hthird) htype⟩, hothers⟩

theorem declares_recursiveGroup (h : ∀ member ∈ members, member.body.WrittenWith hygiene.written) :
    hygiene.Declares bound scope (recursiveGroup inner scope members) := by
  unfold recursiveGroup
  refine declares_nested_bind hscope fun _ _ result hresult => ?_
  refine (declares_nested hresult.covers).bind fun _ _ group hgroup => ?_
  refine (ensures_declareMembers hgroup.above h _).bind fun first _ members hmembers => ?_
  have htypes : ∀ type ∈ (members.map (·.2)).reverse, type.AllNames (hygiene.names first) := by
    intro type htype
    obtain ⟨member, hmember, rfl⟩ := mem_map.mp (mem_reverse.mp htype)
    exact (hmembers member hmember).2
  refine (ensures_withMonomorphic (P := fun _ _ => True)
    (fun _ _ _ _ _ => trivial) (fun second hsecond =>
      .discard (.forIn fun entry hentry third hthird => ?_)) htypes).bind
    fun second hsecond _ _ => ?_
  · obtain ⟨hbody, htype⟩ := hmembers entry hentry
    refine (ensures_inBinding (lasting_type hygiene)
      fun _ _ => hinner.expr hgroup.covers hbody).bind
      fun fourth hfourth body hbody => ?_
    have hle := hsecond.trans (hthird.trans hfourth)
    refine (givesType_unify hgroup.covers (type_later hle htype) hbody _ _).bind
      fun fifth hfifth _ _ => ?_
    split
    · refine (ensures_pattern hscope _).bind fun sixth hsixth found hfound => ?_
      exact (givesType_unify hgroup.covers (type_later
        (hle.trans (hfifth.trans hsixth)) htype) hfound.1 _ _).discard
    · exact .pure fun _ _ => trivial
  · refine (ensures_outsideExplicit (lasting_fields hygiene)
      fun third hthird => .mapM (lasting_field hygiene) fun entry hentry later hlater => ?_).bind
      fun _ _ schemes hschemes => ?_
    · exact (givesType_generalize hgroup.covers (type_later
        (hsecond.trans (hthird.trans hlater)) (hmembers entry hentry).2) _
        _).bind_pure fun _ _ type htype => htype
    · refine .returns (.forIn fun entry hentry _ hle => ?_)
      exact (keeps_writeValue hresult.above _ (type_later hle (hschemes entry hentry))).discard

omit hinner in
theorem declares_withExplicit (parameters : List String) (declaration : Decl) (span : Span)
    (haction : ∀ {next}, hygiene.Declares next scope action) :
    hygiene.Declares bound scope (withExplicit scope parameters declaration span action) := by
  refine (keeps_enterExplicit _ _ _).bind fun _ hfirst _ _ => ?_
  refine (Declares.after haction hfirst).bind fun _ _ result hresult => ?_
  exact (keeps_leaveExplicit hscope _).bind_pure fun _ hlast _ _ => hresult.later hlast

/-! ## Declarations -/

omit hinner in
theorem declares_openStructures (span : Span) (names : List LongName) :
    hygiene.Declares bound scope (openStructures scope span names) := by
  refine declares_nested_bind hscope fun _ _ result hresult => ?_
  refine .returns (.forIn fun long _ _ _ => ?_)
  refine ensures_look_bind fun _ hholds _ => ?_
  split
  · rename_i hfound
    exact (keeps_write hresult.above fun _ hle => adds_installStatics
      (basis_later hle (hholds.staticStructure? hscope hfound))).discard
  · exact keeps_failAt _ _

theorem declares_declRule (h : declaration.WrittenWith hygiene.written)
    (hsimple : declaration.IsSimple) :
    hygiene.Declares bound scope (declRule inner scope declaration) := by
  cases declaration with
  | val recursive parameters bindings span =>
    rw [Decl.WrittenWith, bindingsWrittenWith_iff] at h
    cases recursive with
    | false =>
      exact declares_withExplicit hscope _ _ _ (declares_valueBindings hinner hscope span h)
    | true =>
      refine declares_withExplicit hscope _ _ _ fun {next} => ?_
      exact (keeps_recursiveMembers h).bind fun _ hnext members hmembers =>
        Declares.after (declares_recursiveGroup hinner hscope hmembers) hnext
  | functions parameters bindings span =>
    rw [Decl.WrittenWith, functionsWrittenWith_iff] at h
    refine declares_withExplicit hscope _ _ _
      (declares_recursiveGroup hinner hscope fun member hmember => ?_)
    obtain ⟨binding, hbinding, rfl⟩ := mem_map.mp hmember
    exact FunBind.writtenWith_toExpr (h binding hbinding)
  | types bindings span =>
    exact declares_typeBindings hscope h
  | datatypes bindings span =>
    exact declares_datatypeBindings hscope h
  | replicate name target span => exact declares_replicateDatatype hscope name target span
  | exceptions bindings span => exact declares_exceptionBindings hscope bindings
  | opened names span => exact declares_openStructures hscope span names
  | structures bindings span =>
    rw [Decl.WrittenWith, structuresWrittenWith_iff] at h
    exact declares_structureBindings hinner hscope h
  | signatures bindings span =>
    exact declares_signatureBindings hscope h
  | functors bindings span =>
    rw [Decl.WrittenWith, functorsWrittenWith_iff] at h
    exact declares_functorBindings hinner hscope h
  | localIn | seq | fixity => exact hsimple.elim

theorem givesScope_declRule (h : declaration.WrittenWith hygiene.written) :
    hygiene.GivesScope bound (declRule inner scope declaration) := by
  cases declaration with
  | localIn hidden body span =>
    refine (hinner.decl hscope h.1).bind fun _ _ within hwithin => ?_
    refine (declares_nested hwithin).bind fun _ _ mark hmark => ?_
    refine (hinner.decl hmark.covers h.2).bind fun _ _ after hafter => ?_
    refine ensures_look_bind fun _ hholds _ => ?_
    obtain ⟨hstatics, hdynamics⟩ := hholds.changesSince hafter _
    exact (ensures_withChanges hscope _ hstatics hdynamics).mono fun _ _ _ hresult => hresult.1
  | seq declarations span =>
    rw [Decl.WrittenWith, allWrittenWith_iff] at h
    exact .foldlM (lasting_scope hygiene) hscope fun declaration hdeclaration _ _ _
      hscope => hinner.decl hscope (h declaration hdeclaration)
  | fixity fixity names span =>
    intro state hholds _
    rw [fixityDecl_eq]
    exact ⟨Holds.push hholds scope StaticBasis.allNames_empty hygiene.empty,
      Holds.stage_le_push hholds scope rfl, Holds.covers_push hholds hscope⟩
  | _ => exact (declares_declRule hinner hscope h trivial).givesScope

end Hygiene

/-! ## Whole phrases -/

theorem keepsTo_inner (hygiene : Hygiene) (height : Nat) :
    Inner.KeepsTo ⟨elabExpr height, elabDecl height, elabStr height⟩
      hygiene := by
  induction height with
  | zero =>
    refine ⟨fun _ _ => ?_, fun _ _ => ?_, fun _ _ => ?_⟩
    · unfold elabExpr
      exact keeps_failAt _ _
    · unfold elabDecl
      exact keeps_failAt _ _
    · unfold elabStr
      exact keeps_failAt _ _
  | succ height ih =>
    refine ⟨fun hscope h => ?_, fun hscope h => ?_, fun hscope h => ?_⟩
    · unfold elabExpr
      exact givesType_exprRule ih hscope h
    · unfold elabDecl
      exact givesScope_declRule ih hscope h
    · unfold elabStr
      exact givesBasis_structureRule ih hscope h

namespace Hygiene

variable {hygiene : Hygiene} {bound : hygiene.Stage} {scope : Scope} (hscope : hygiene.Covers scope)
include hscope

theorem givesScope_elabComplete (h : declaration.WrittenWith hygiene.written) :
    hygiene.GivesScope bound (elabComplete scope declaration) := by
  refine ((keepsTo_inner hygiene _).decl hscope h).bind fun _ _ within hwithin => ?_
  exact (keeps_checkFlexible hwithin).bind_pure fun _ _ _ _ => hwithin

theorem givesScope_settle {within : Scope} (hwithin : hygiene.Covers within) {changes : Changes}
    (hstatics : changes.statics.AllNames (hygiene.names bound))
    (hdynamics : hygiene.dynamics changes.dynamics) :
    hygiene.GivesScope bound (settle scope within changes) := by
  refine (givesBasis_resolveBasis hwithin Ty.AllNames.defaultDomains
    hstatics).bind fun _ _ statics hstatics => ?_
  refine (ensures_withChanges hscope { changes with statics } hstatics
    hdynamics).bind fun _ _ result hresult => ?_
  refine .bind (keeps_modify (fun _ h _ => { h with store := h.store.freeOnly })
    fun _ => stage_le le_rfl rfl (.forget .refl)) fun _ _ _ _ => ?_
  refine .bind .get fun _ _ state _ => ?_
  exact .bind_pure (keeps_write hresult.2 fun _ _ =>
    ⟨fun _ h => h, fun _ => rfl, fun _ => ⟨rfl, rfl, rfl⟩⟩) fun _ _ _ _ => hresult.1

theorem givesScope_elabTopLevel (h : declaration.WrittenWith hygiene.written) :
    hygiene.GivesScope bound (elabTopLevel scope declaration) := by
  refine .bind (keeps_modify fun _ h _ => { h with }) fun _ _ _ _ => ?_
  refine (declares_nested hscope).bind fun _ _ group hgroup => ?_
  refine (givesScope_elabComplete hgroup.covers h).bind fun _ _ within hwithin => ?_
  refine ensures_look_bind fun _ hholds _ => ?_
  obtain ⟨hstatics, hdynamics⟩ := hholds.changesSince hwithin _
  exact givesScope_settle hscope hwithin hstatics hdynamics

/-- Elaborating a program brings in no names but those that are fresh or
written. -/
theorem givesScope_elabProgram {program : Program}
    (h : ∀ declaration ∈ program.declarations, declaration.WrittenWith hygiene.written) :
    hygiene.GivesScope bound (elabProgram scope program) :=
  .foldlM (lasting_scope hygiene) hscope fun declaration hdeclaration _ _ _ hscope =>
    givesScope_elabTopLevel hscope (h declaration hdeclaration)

end Hygiene

/-! ## Names of any kind -/

def Hygiene.any (base : Nat) (scope : Scope) : Hygiene where
  base
  start := scope
  kind _ _ := True
  written _ := True
  dynamics _ := True
  kind_mono _ _ := trivial
  closed _ := ⟨fun _ _ => trivial, fun _ => trivial⟩
  given _ := trivial
  kind_of_written _ := trivial
  empty := trivial
  orElse _ _ := trivial

section Any

variable {base : Nat} {scope : Scope} {state : ElabState}

theorem Hygiene.covers_any : (any base scope).Covers scope := fun _ hnumber => .inr hnumber

theorem Hygiene.holds_any (h : base ≤ state.tree.frames.size) : (any base scope).Holds state where
  size := h
  statics _ _ _ _ := trivial
  dynamics _ := trivial
  store _ _ := trivial
  monomorphic _ _ _ _ := trivial
  explicit _ _ _ _ := trivial
  flexible _ _ _ _ := trivial

/-- What keeps to the frames it has made, whatever the names, makes the tree
grow. -/
theorem grows_of_ensures {α : Type} {action : Elab α}
    {P : (any base scope).Stage → (any base scope).Stage → α → Prop}
    (h : ∀ {bound}, (any base scope).Ensures bound (P bound) action) :
    Advances (ElabState.Grows base) action := by
  intro state hbase
  have hafter := h state (holds_any hbase) le_rfl
  unfold leaves
  cases hresult : action state with
  | ok | error =>
    rw [hresult] at hafter
    exact hafter.2.1.2

theorem opened_of_declares {result : Scope} {after : ElabState}
    (hbase : base ≤ state.tree.frames.size)
    (h : (any base scope).Declares ⟨state⟩ scope action)
    (hok : action state = .ok result after) :
    (any base scope).Opened scope ⟨state⟩ ⟨after⟩ result := by
  have hafter := h state (holds_any hbase) le_rfl
  rw [hok] at hafter
  exact hafter.2.2

theorem Hygiene.declares_specification_any (spec : Spec) {bound : (any base scope).Stage} :
    (any base scope).Declares bound scope (specification scope spec) :=
  declares_specification covers_any spec (spec.writtenWith_of_forall fun _ => trivial)

theorem grows_elabStr (height : Nat) (body : StrExp) :
    Advances (ElabState.Grows base) (elabStr height scope body) :=
  grows_of_ensures ((keepsTo_inner _ height).str covers_any
    (body.writtenWith_of_forall fun _ => trivial))

theorem grows_realiseArgument (height : Nat) (functor : StaticFunctor)
    (argument : StrExp) (span : Span) :
    Advances (ElabState.Grows base) (realiseArgument
      ⟨elabExpr height, elabDecl height, elabStr height⟩ scope functor argument
      span) :=
  grows_of_ensures (ensures_realiseArgument (keepsTo_inner _ height) covers_any (fun _ _ => trivial)
    (argument.writtenWith_of_forall fun _ => trivial) span)

variable (scope) in
theorem grows_elabProgram (program : Program) :
    Advances (ElabState.Grows base) (elabProgram scope program) :=
  grows_of_ensures (givesScope_elabProgram covers_any
    fun declaration _ => declaration.writtenWith_of_forall fun _ => trivial)

end Any

end Sml
