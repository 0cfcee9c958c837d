import Sml.Proofs.MergeWalk
import Sml.Proofs.TypeNames

/-!
# Merging makes up no names

Instantiation and merging only put together what types, stores and
abbreviations have.  The names that they may come up with on their own are
those for the variables of an abbreviation and the equality variables that
take the place of others.
-/

namespace Sml

/-- Kinds of names that merging does not leave. -/
structure ClosedNames (P : String → Prop) : Prop where
  equality : ∀ name, P name → P (Ty.equalityName name)
  expansion : ∀ index : Nat, P ("'*q" ++ toString index)

def TypeEnv.AllNames (P : String → Prop) (env : TypeEnv) : Prop :=
  ∀ path name info, env.type? path name = some info → info.type.AllNames P

variable {store : Store}
variable {env : TypeEnv}

namespace Ty

variable {P : String → Prop}

def namesKind (P : String → Prop) : MergeKind where
  store := Store.AllNames P
  type _ := Ty.AllNames P
  shown _ := Ty.AllNames P
  made _ := Ty.AllNames P
  grows _ := Store.AllNames P

theorem mergedNames_mergeVariables (hstore : store.AllNames P) {this that : Binder}
    (hthis : (var this.name this.domain this.free).AllNames P)
    (hthat : (var that.name that.domain that.free).AllNames P) :
    Yields ((namesKind P).Merged store) (mergeVariables store this that) := by
  obtain ⟨hthis, hthisDomain⟩ := allNames_var.mp hthis
  obtain ⟨hthat, hthatDomain⟩ := allNames_var.mp hthat
  have hdomain := allNames_mergeDomain hthisDomain hthatDomain
  have hmerged : ∀ {name} free, P name →
      (var name (mergeDomain this.domain that.domain) free).AllNames P :=
    fun _ hname => allNames_var.mpr ⟨hname, hdomain⟩
  rintro ⟨merged, next⟩ h
  obtain ⟨_, ⟨_, rfl, rfl⟩ | ⟨survivor, victim, hboth, _, rfl, rfl⟩⟩ := mergeVariables_eq_ok h
  · exact ⟨hmerged _ hthis, hstore⟩
  · -- One of the names survives, and the other is bound to it.
    have hnames : P survivor.name ∧ P victim.name := by
      rcases hboth with ⟨rfl, rfl⟩ | ⟨rfl, rfl⟩
      · exact ⟨hthis, hthat⟩
      · exact ⟨hthat, hthis⟩
    have hbound := hstore.bind hnames.2
      (hmerged (this.free || that.free) hnames.1) (this.free || that.free)
    refine ⟨hmerged _ hnames.1, ?_⟩
    change Store.AllNames P (Store.join _ _ _ _ _)
    rw [Store.join]
    split
    · exact hbound
    · exact (hbound.constrain hnames.1 hdomain).constrain hnames.2 hdomain

/-! ## Abbreviations -/

variable (hclosed : ClosedNames P)
include hclosed

theorem allNames_expansionNames (store : Store) (index : Nat) (names : List String) :
    ∀ entry ∈ expansionNames store index names, P entry.2 := by
  induction names generalizing index with
  | nil => simp [expansionNames]
  | cons name names ih =>
    intro entry hentry
    rcases Table.mem_of_mem_insert hentry with rfl | hentry
    · dsimp only
      split
      · exact hclosed.equality _ (hclosed.expansion _)
      · exact hclosed.expansion _
    · exact ih _ entry hentry

theorem allNames_renewAbbreviation (store : Store) {abbreviation : Abbreviation}
    (hparameters : ∀ type ∈ abbreviation.parameters, type.AllNames P)
    (hbody : abbreviation.body.AllNames P) :
    (∀ type ∈ (renewAbbreviation store abbreviation).parameters, type.AllNames P) ∧
      (renewAbbreviation store abbreviation).body.AllNames P := by
  have hnames := allNames_expansionNames hclosed store 1
    (Ty.arrow (.con abbreviation.head abbreviation.parameters) abbreviation.body).variableNames
  refine ⟨fun type htype => ?_, hbody.rename hnames⟩
  obtain ⟨original, horiginal, rfl⟩ := List.mem_map.mp htype
  exact (hparameters original horiginal).rename hnames

/-! ## The recursion -/

theorem namesKind_respects (henv : env.AllNames P) : (namesKind P).Respects env env where
  refl hstore := hstore
  trans _ hnext := hnext
  sound hnext := hnext
  later _ htype := htype
  lasts _ htype := htype
  given _ htype := htype
  kept htype := htype
  body htype := (allNames_bind.mp htype).2.2
  simplify htype := htype.simplify
  fields htype := allNames_record.mp htype
  arrow htype := allNames_arrow.mp htype
  arguments htype := allNames_con.mp htype
  makeRecord _ hothers _ := allNames_record.mpr hothers
  makeArrow hparameter hresult := allNames_arrow.mpr ⟨hparameter, hresult⟩
  makeCon _ _ hothers _ := allNames_con.mpr hothers
  join hstore hthis hthat := mergedNames_mergeVariables hstore hthis hthat
  rebind hname _ _ hmerged free := ⟨hmerged.made, hmerged.grown.bind (hmerged.grown.follow _ _
      (allNames_var.mp hname).1) hmerged.made free⟩
  definition _ := rfl
  abbreviation := by
    intro store head arguments info abbreviation _ hinfo habbreviation
    have hinfo := henv _ _ _ (Option.filter_eq_some_iff.mp hinfo).1
    obtain ⟨hparameters, hbody⟩ := hinfo.abbreviation? habbreviation
    exact allNames_renewAbbreviation hclosed store hparameters hbody
  typed htype := htype
  bound hstore hbinding := (hstore.get? hbinding).2
  earlier _ htype := htype
  showAny := allNames_any
  showVar := by
    intro store name domain free hstore htype _
    obtain ⟨hname, hdomain⟩ := allNames_var.mp htype
    refine allNames_var.mpr ⟨hname, ?_⟩
    rw [Store.narrow]
    cases hrecorded : store.domain? name with
    | none => exact hdomain
    | some recorded => exact allNames_mergeDomain hdomain (hstore.domain? hrecorded)
  showBind htype hbody := allNames_bind.mpr ((allNames_bind.mp htype).imp_right
      (And.imp_right fun _ => hbody))
  showRecord _ hothers := allNames_record.mpr hothers
  showArrow hparameter hresult := allNames_arrow.mpr ⟨hparameter, hresult⟩
  showCon _ _ hothers _ _ := allNames_con.mpr hothers
  makeBind htype hbody := allNames_bind.mpr ((allNames_bind.mp htype).imp_right
      (And.imp_right fun _ => hbody))
  convert := by
    intro store name domain free hstore htype _
    obtain ⟨hname, hdomain⟩ := allNames_var.mp htype
    have hequality : (var (equalityName name) domain free).AllNames P :=
      allNames_var.mpr ⟨hclosed.equality _ hname, hdomain⟩
    exact ⟨hequality, hstore.bind hname hequality _⟩
  replace hname hmerged free :=
    ⟨hmerged.made, hmerged.grown.bind (allNames_var.mp hname).1 hmerged.made free⟩

theorem namesKind_kept (henv : env.AllNames P) (depth : Nat) :
    (namesKind P).Kept env env depth := by
  refine ((namesKind_respects hclosed henv).keeps ?_ depth).1
  intro store type binder _ htype
  unfold Binder.mark
  split
  · exact AllNames.makeFree htype
  · exact htype

theorem AllNames.instantiate (henv : env.AllNames P) (hstore : store.AllNames P) {type : Ty}
    (htype : type.AllNames P) : Yields (Ty.AllNames P) (type.instantiate env store) :=
  ((namesKind_kept hclosed henv _).instantiate _ hstore htype).yields

end Ty

end Sml
