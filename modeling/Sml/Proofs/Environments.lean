import Sml.Proofs.Equality
import Sml.Proofs.MergeNames

/-!
# Instantiation and merging in two environments

What is found for types of a set in one environment is found in every
environment that finds the same for the set and assumes no less.  The point
to see is that merging does not turn a variable into an equality variable
under the weaker assumptions only: a type that admits equality once its
variables are equality variables, and admits it unchanged under stronger
assumptions, admits it unchanged.
-/

namespace Sml

/-! ## Equality variables -/

variable {store store' : Store} {depth : Nat} {type : Ty}
variable {H : TyCon → Nat → Prop} {env other base : TypeEnv} {types results : List Ty} {result : Ty}

namespace Ty

theorem mem_of_threadStore {ε : Type} {f : Store → Ty → Except ε (Ty × Store)}
    (h : threadStore f store types = .ok (results, store')) :
    results.length = types.length ∧ ∀ type ∈ types, ∃ result ∈ results,
      ∃ before after, f before type = .ok (result, after) := by
  induction types generalizing store results with
  | nil =>
    cases h
    simp
  | cons type types ih =>
    obtain ⟨⟨first, middle⟩, hfirst, hrest⟩ := bind_eq_ok h
    obtain ⟨⟨others, last⟩, hothers, hlast⟩ := bind_eq_ok hrest
    cases hlast
    obtain ⟨hlength, hmem⟩ := ih hothers
    refine ⟨congrArg (· + 1) hlength, List.forall_mem_cons.mpr ⟨?_, ?_⟩⟩
    · exact ⟨first, by simp, store, middle, hfirst⟩
    · intro other hother
      obtain ⟨result, hresult, hmade⟩ := hmem other hother
      exact ⟨result, by simp [hresult], hmade⟩

/-- A declared type that is not an abbreviation is only changed in its
arguments, and not at all if it does not admit equality. -/
theorem makeEqTo_con {head : TyCon} {arguments : List Ty}
    (hplain : ((env.definition? head).all fun info => !info.isAbbreviation) = true)
    (h : makeEqTo (depth + 1) env store (con head arguments) = .ok (result, store')) :
    (((env.definition? head).any fun info => !info.equality) = true ∧
        result = con head arguments ∧ store' = store) ∨
      ∃ results, result = con head results ∧ threadStore (makeEqTo depth env) store arguments =
          .ok (results, store') := by
  simp only [makeEqTo] at h
  obtain ⟨expanded, hexpanded, hrest⟩ := bind_eq_ok h
  cases depth with
  | zero => cases hexpanded
  | succ depth =>
    obtain ⟨hidden, results, _, rfl, _⟩ := exists_of_instantiateTo_con hplain hexpanded
    have hsame : ({ head with hidden } : TyCon).same head = true := by simp [TyCon.same]
    simp only [hsame, if_true, pure_bind] at hrest
    split at hrest
    · rename_i hequality
      cases hrest
      exact .inl ⟨hequality, rfl, rfl⟩
    · obtain ⟨⟨results, last⟩, hresults, hlast⟩ := bind_eq_ok hrest
      cases hlast
      exact .inr ⟨results, rfl, hresults⟩

theorem isUnfolded_mark (h : type.isUnfolded env = true) (binder : Binder) :
    (binder.mark type).isUnfolded env = true :=
  isUnfolded_iff_builtFrom.mpr ((isUnfolded_iff_builtFrom.mp h).mark binder)

end Ty

theorem TypeEnv.Trusts.isUnfolded {A : Prop} (h : env.Trusts A H other) (htype : type.BuiltFrom H)
    (hunfolded : type.isUnfolded env = true) : type.isUnfolded other = true := by
  rw [Ty.isUnfolded_iff_builtFrom] at hunfolded ⊢
  intro entry hentry
  rw [h.definition? (htype entry hentry)]
  exact hunfolded entry hentry

namespace Ty

variable {A : Prop} {H : TyCon → Nat → Prop}

section Converted

variable {unfold unfold' : TypeEnv → Ty → Except TypeFault Ty}
  {behind behind' : TypeEnv → Ty → Option Bool}

private theorem allAdmitBy_of_threadStore
    (hone : ∀ {store store' : Store} {type result : Ty}, type ∈ types →
      makeEqTo depth base store type = .ok (result, store') →
      admitsBy unfold behind result env = some true →
      admitsBy unfold' behind' type other = some true →
      admitsBy unfold behind type env = some true)
    (hthread : threadStore (makeEqTo depth base) store types = .ok (results, store'))
    (hresults : allAdmitBy unfold behind results env = some true)
    (htypes : allAdmitBy unfold' behind' types other = some true) :
    allAdmitBy unfold behind types env = some true := by
  rw [allAdmitBy_iff] at hresults htypes ⊢
  intro type htype
  obtain ⟨result, hresult, before, after, hmade⟩ := (mem_of_threadStore hthread).2 type htype
  exact hone htype hmade (hresults result hresult) (htypes type htype)

/-- Where a type admits equality under stronger assumptions, equality
variables do not help it under weaker ones. -/
theorem admitsBy_of_makeEqTo (depth : Nat) (htrusts : env.Trusts A H other)
    (hbase : env.type? = base.type?) (htype : type.BuiltFrom H)
    (hunfolded : type.isUnfolded base = true)
    (h : makeEqTo depth base store type = .ok (result, store'))
    (hresult : admitsBy unfold behind result env = some true)
    (hother : admitsBy unfold' behind' type other = some true) :
    admitsBy unfold behind type env = some true := by
  induction depth generalizing store store' type result env other with
  | zero => cases h
  | succ depth ih =>
    cases type with
    | any => rw [admitsBy]
    | var name domain free => rwa [admitsBy] at hother ⊢
    | bind name domain free body =>
      obtain ⟨⟨body', middle⟩, hbody, hlast⟩ := bind_eq_ok h
      cases hlast
      rw [admitsBy] at hresult hother ⊢
      exact ih htrusts hbase (builtFrom_bind.mp htype) hunfolded hbody hresult hother
    | record fields complete =>
      rw [isUnfolded_record] at hunfolded
      rw [builtFrom_record] at htype
      obtain ⟨⟨types, middle⟩, htypes, hlast⟩ := bind_eq_ok h
      cases hlast
      have hlength := (mem_of_threadStore htypes).1
      rw [List.length_map] at hlength
      rw [admitsBy, fieldsAdmitBy_eq] at hresult hother ⊢
      rw [List.map_snd_zip (by simp [hlength])] at hresult
      refine allAdmitBy_of_threadStore (fun hvalue => ?_) htypes hresult hother
      obtain ⟨field, hfield, rfl⟩ := List.mem_map.mp hvalue
      exact ih htrusts hbase (htype field hfield) (hunfolded field hfield)
    | arrow parameter result => rw [admitsBy] at hother; cases hother
    | tuple elements =>
      have hinner : (tuple elements).isUnfolded env = true := by rwa [isUnfolded_congr hbase]
      rw [← admitsBy_simplify hinner]
      rw [← admitsBy_simplify (htrusts.isUnfolded htype hinner)] at hother
      exact ih htrusts hbase htype.simplify (isUnfolded_simplify hunfolded) h hresult hother
    | con head arguments =>
      obtain ⟨hplain, hunfolded⟩ := (isUnfolded_con _ _).mp hunfolded
      obtain ⟨hhead, harguments⟩ := builtFrom_con.mp htype
      obtain ⟨_, rfl, _⟩ | ⟨results, rfl, hthread⟩ := makeEqTo_con hplain h
      · exact hresult
      · have hexpands : env.expands head = false := by
          apply TypeEnv.expands_eq_false
          rwa [TypeEnv.definition?, hbase]
        rw [admitsBy_con hexpands] at hresult ⊢
        rw [admitsBy_con ((htrusts.expands hhead).trans hexpands)] at hother
        rcases hresult with hunknown | ⟨hadmits, hresult⟩
        · exact .inl hunknown
        · rcases hother with hunknown | ⟨_, hother⟩
          · exact .inl (htrusts.isUnknown hhead hunknown)
          · refine .inr ⟨hadmits, allAdmitBy_of_threadStore
              (fun hargument => ?_) hthread hresult hother⟩
            exact ih (htrusts.inside hhead) ((env.type?_inside head).trans hbase)
              (harguments _ hargument) (hunfolded _ hargument)

end Converted

end Ty

/-! ## Instantiation and merging -/

/-- The variables are bound to types that mention only declared types of a
set. -/
def Store.BuiltFrom (H : TyCon → Nat → Prop) (store : Store) : Prop :=
  ∀ name binding, store.get? name = some binding → binding.type.BuiltFrom H

theorem Store.builtFrom_empty (H : TyCon → Nat → Prop) : Store.BuiltFrom H {} :=
  fun _ _ hbinding => nomatch hbinding

theorem Store.BuiltFrom.bind (h : store.BuiltFrom H) (htype : type.BuiltFrom H) (name : String)
    (free : Bool) : (store.bind name type free).BuiltFrom H := by
  intro other binding hbinding
  rw [get?_bind] at hbinding
  split at hbinding
  · cases hbinding
    exact htype
  · exact h other binding hbinding

namespace Ty

variable {A : Prop} {H : TyCon → Nat → Prop}

/-- Types and stores that mention only declared types of a set, shown without
abbreviations. -/
def builtKind (H : TyCon → Nat → Prop) (env : TypeEnv) : MergeKind where
  store := Store.BuiltFrom H
  type _ := Ty.BuiltFrom H
  shown _ type := type.BuiltFrom H ∧ type.isUnfolded env = true
  made _ := Ty.BuiltFrom H
  grows _ := Store.BuiltFrom H

theorem builtKind_respects (htrusts : env.Trusts A H other) :
    (builtKind H env).Respects env other where
  refl hstore := hstore
  trans _ hnext := hnext
  sound hnext := hnext
  later _ htype := htype
  lasts _ htype := htype
  given _ htype := htype.1
  kept htype := htype
  body htype := builtFrom_bind.mp htype
  simplify htype := htype.simplify
  fields htype := builtFrom_record.mp htype
  arrow htype := builtFrom_arrow.mp htype
  arguments htype := (builtFrom_con.mp htype).2
  makeRecord _ hothers _ := builtFrom_record.mpr hothers
  makeArrow hparameter hresult := builtFrom_arrow.mpr ⟨hparameter, hresult⟩
  makeCon htype hlength hothers hidden := builtFrom_con.mpr ⟨hlength ▸ htrusts.hidden hidden
      (builtFrom_con.mp htype).1, hothers⟩
  join := by
    rintro store this that hstore - - ⟨merged, next⟩ h
    obtain ⟨_, ⟨_, rfl, rfl⟩ | ⟨survivor, victim, _, _, rfl, rfl⟩⟩ := mergeVariables_eq_ok h
    · exact ⟨builtFrom_var _ _ _, hstore⟩
    · refine ⟨builtFrom_var _ _ _, ?_⟩
      change Store.BuiltFrom H (Store.join _ _ _ _ _)
      rw [Store.join]
      split <;> exact hstore.bind (builtFrom_var _ _ _) _ _
  rebind _ _ _ hmerged free := ⟨hmerged.made, hmerged.grown.bind hmerged.made _ free⟩
  definition htype := htrusts.definition? (builtFrom_con.mp htype).1
  abbreviation := by
    intro store head arguments info abbreviation htype hinfo habbreviation
    obtain ⟨_, hparameters, hbody⟩ := htrusts.abbreviations
      (builtFrom_con.mp htype).1 hinfo habbreviation
    exact ⟨List.forall_mem_map.mpr fun parameter hparameter =>
      (hparameters parameter hparameter).rename _, hbody.rename _⟩
  typed htype := htype
  bound hstore hbinding := hstore _ _ hbinding
  earlier _ htype := htype
  showAny := ⟨builtFrom_any, rfl⟩
  showVar _ _ _ := ⟨builtFrom_var _ _ _, rfl⟩
  showBind _ hbody := ⟨builtFrom_bind.mpr hbody.1, hbody.2⟩
  showRecord _ hothers := ⟨builtFrom_record.mpr fun field hfield => (hothers field hfield).1,
      (isUnfolded_record _ _).mpr fun field hfield => (hothers field hfield).2⟩
  showArrow hparameter hresult := ⟨builtFrom_arrow.mpr ⟨hparameter.1, hresult.1⟩,
      (isUnfolded_arrow _ _).mpr ⟨hparameter.2, hresult.2⟩⟩
  showCon htype hlength hothers hplain hidden := ⟨builtFrom_con.mpr ⟨hlength ▸ htrusts.hidden hidden
      (builtFrom_con.mp htype).1, fun argument hargument =>
        (hothers argument hargument).1⟩,
      (isUnfolded_con _ _).mpr ⟨hplain, fun argument hargument => (hothers argument hargument).2⟩⟩
  makeBind _ hbody := builtFrom_bind.mpr hbody
  convert hstore _ _ := ⟨builtFrom_var _ _ _, hstore.bind (builtFrom_var _ _ _) _ _⟩
  replace _ hmerged free := ⟨hmerged.made, hmerged.grown.bind hmerged.made _ free⟩

/-- To a depth, what is found in the first environment is found in the
second. -/
structure Followed (H : TyCon → Nat → Prop) (env other : TypeEnv)
    (depth : Nat) : Prop extends (builtKind H env).Kept env other depth where
  convert : (builtKind H env).Converts (makeEqTo depth env) (makeEqTo depth other)

theorem follows_bindTo (htrusts : env.Trusts A H other)
    (ih : ∀ {env other : TypeEnv}, env.Trusts A H other → Followed H env other depth)
    (hstore : store.BuiltFrom H) (binder : Binder) (htype : type.BuiltFrom H)
    (hunfolded : type.isUnfolded env = true) :
    Follows ((builtKind H env).Merged store) (bindTo (depth + 1) env store binder type)
      (bindTo (depth + 1) other store binder type) := by
  have hmono : ∀ {type : Ty}, type.BuiltFrom H →
      admitsWithin (fun env => instantiateTo depth env [] {}) unfoldingRoom env type = some true →
      admitsWithin (fun env => instantiateTo depth env [] {}) unfoldingRoom other type =
        some true := by
    refine admitsWithin_mono (fun _ => ?_) htrusts
    intro env other type result htrusts htype hresult
    exact ((ih htrusts).instantiate [] (Store.builtFrom_empty H) htype _ hresult).imp_right (·.1)
  rintro ⟨merged, store'⟩ h
  obtain ⟨hcontains, middle, hmiddle, hdomain, rfl⟩ := bindTo_eq_ok_iff.mp h
  have hmarked := htype.mark binder
  have hmade : (builtKind H env).Merged store (merged, middle) := by
    rcases hmiddle with ⟨rfl, rfl, _⟩ | ⟨_, _, hmade, _⟩
    · exact ⟨hmarked, hstore⟩
    · exact ((ih htrusts).convert hstore hmarked _ hmade).2
  refine ⟨bindTo_eq_ok_iff.mpr ⟨hcontains, middle, ?_, hdomain, rfl⟩,
    hmade.made, hmade.grown.bind hmade.made _ _⟩
  rcases hmiddle with ⟨hmerged, hsame, hadmits⟩ | ⟨hequality, hnot, hconverted, hadmits⟩
  · exact .inl ⟨hmerged, hsame, fun hequality => hmono hmarked (hadmits hequality)⟩
  · refine .inr ⟨hequality, ?_, ((ih htrusts).convert hstore hmarked _ hconverted).1,
      hmono hmade.made hadmits⟩
    refine fun hother => hnot ?_
    exact admitsBy_of_makeEqTo depth htrusts rfl hmarked
      (isUnfolded_mark hunfolded _) hconverted hadmits hother

theorem followed (depth : Nat) (htrusts : env.Trusts A H other) : Followed H env other depth := by
  induction depth generalizing env other with
  | zero =>
    exact ⟨⟨fun _ _ _ => .error _, fun _ _ _ => .error _,
      fun _ _ _ _ => .error _⟩, fun _ _ => .error _⟩
  | succ depth ih =>
    have hlaw := builtKind_respects htrusts
    have hkept := (ih htrusts).toKept
    exact ⟨⟨fun seen hstore htype =>
        hkept.follows_instantiateTo hlaw hstore seen htype,
      hkept.merges_mergeTo hlaw.toLawful,
      fun hstore _ htype _ =>
        follows_bindTo htrusts ih hstore _ htype.1 htype.2⟩,
      fun hstore htype => hkept.follows_makeEqTo hlaw hstore (ih htrusts).convert htype⟩

/-- A type that admits equality still does so in an environment that finds
the same for it and assumes no less. -/
theorem admitsEquality_mono (htrusts : env.Trusts A H other) (htype : type.BuiltFrom H)
    (h : type.admitsEquality env = some true) : type.admitsEquality other = some true := by
  refine admitsWithin_mono (fun _ => ?_) htrusts htype h
  intro env other type result htrusts htype hresult
  exact ((followed _ htrusts).instantiate [] (Store.builtFrom_empty H) htype _
    hresult).imp_right (·.1)

end Ty

end Sml
