import Sml.Proofs.MergeSteps
import Sml.Proofs.Wording

/-!
# Equality variables stand for equality types

That a variable demands equality shows in its name only.  Names of this kind
come before all others, so an equality variable never gives way to another
variable, and what one is bound to admits equality.  It still does when its
own variables are bound, if every type with arguments is declared: of a type
that is not found the arguments are not looked at.
-/

namespace Sml

open List Store Ty

/-! ## Names -/

/-- A name that no text has. -/
def isInternal (name : String) : Bool :=
  match name.toList with
  | '\'' :: '*' :: _ => true
  | '\'' :: '\'' :: '*' :: _ => true
  | _ => false

theorem Ty.isEqualityName_iff (name : String) : isEqualityName name = true ↔
      ∃ rest, name.toList = '\'' :: '\'' :: rest := by
  rw [isEqualityName, String.startsWith_string_iff]
  exact exists_congr fun _ => eq_comm

theorem prime_le_of_isNameTail {c : Char} (h : isNameTail c = true) : '\'' ≤ c := by
  simp only [isNameTail, Char.isAlphanum, Bool.or_eq_true, beq_iff_eq] at h
  rcases h with ((h | h) | rfl) | rfl
  · change (decide (c.val ≥ 'A'.val ∧ c.val ≤ 'Z'.val) ||
      (decide (c.val ≥ 'a'.val) && decide (c.val ≤ 'z'.val))) = true at h
    simp only [Bool.or_eq_true, Bool.and_eq_true, decide_eq_true_eq] at h
    rcases h with h | h
    · exact (by decide : '\'' ≤ 'A').trans h.1
    · exact (by decide : '\'' ≤ 'a').trans h.1
  · change (decide (c.val ≥ '0'.val) && decide (c.val ≤ '9'.val)) = true at h
    rw [Bool.and_eq_true, decide_eq_true_eq] at h
    exact (by decide : '\'' ≤ '0').trans h.1
  · decide
  · decide

variable {name : String}
variable {first second : String} {H : TyCon → Nat → Prop} {other : TypeEnv}

theorem exists_of_isVariable (h : isVariable name = true ∨ isInternal name = true) :
    ∃ c rest, name.toList = '\'' :: c :: rest ∧ '\'' ≤ c := by
  rcases h with h | h
  · unfold isVariable at h
    split at h
    · rename_i rest heq
      rw [Bool.and_eq_true, all_eq_true] at h
      cases rest with
      | nil => simp at h
      | cons c rest => exact ⟨c, rest, heq, prime_le_of_isNameTail (h.2 c (by simp))⟩
    · cases h
  · unfold isInternal at h
    split at h
    · rename_i rest heq
      exact ⟨_, _, heq, by decide⟩
    · rename_i rest heq
      exact ⟨_, _, heq, by decide⟩
    · cases h

theorem Ty.lt_of_isEqualityName (hsecond : isVariable second = true ∨ isInternal second = true)
    (hequality : isEqualityName first = true) (hnot : isEqualityName second = false) :
    first < second := by
  obtain ⟨rest, hfirst⟩ := (isEqualityName_iff first).mp hequality
  obtain ⟨c, others, hothers, hle⟩ := exists_of_isVariable hsecond
  have hne : c ≠ '\'' := by
    rintro rfl
    rw [(isEqualityName_iff second).mpr ⟨others, hothers⟩] at hnot
    cases hnot
  rw [String.lt_iff_toList_lt, hfirst, hothers, cons_lt_cons_iff, cons_lt_cons_iff]
  exact .inr ⟨rfl, .inl (lt_of_le_of_ne hle hne.symm)⟩

/-! ## Binding the variables of a type -/

variable {store : Store}

section Closed

variable {H : TyCon → Nat → Prop} {env : TypeEnv} (hclosed : env.Closed False H)
  (hdeclared : ∀ {head count}, H head count →
    count = 0 ∨ (env.type? head.path head.name).isSome = true)
include hclosed

theorem TypeEnv.Closed.unfolded {head : TyCon} {count : Nat} (hhead : H head count) :
    ((env.definition? head).all fun info => !info.isAbbreviation) = true := by
  rw [Option.all_eq_true]
  intro info hinfo
  cases habbreviation : info.abbreviation? with
  | none => rw [TypeInfo.isAbbreviation, habbreviation]; rfl
  | some abbreviation => exact (hclosed.abbreviations hhead hinfo habbreviation).1.elim

omit hclosed in
include hdeclared in
theorem TypeEnv.Trusts.inside_right (h : env.Trusts False H other) (head : TyCon) :
    env.Trusts False H (other.inside head) := by
  unfold TypeEnv.inside
  split
  · refine { h with kept := ?_, new := ?_ }
    · intro inner count assumed hinner hassumed
      simp only [TypeEnv.assume]
      split
      · exact ⟨_, rfl, fun _ => rfl⟩
      · exact h.kept hinner hassumed
    · intro inner count more hinner hnone hmore
      simp only [TypeEnv.assume] at hmore
      split at hmore
      · cases hmore
        refine ⟨rfl, hdeclared hinner, fun info hinfo => ?_⟩
        have hplain := h.toClosed.unfolded hinner
        rwa [hinfo, Option.all_some, Bool.not_eq_true'] at hplain
      · exact h.new hinner hnone hmore
  · exact h

include hdeclared in
/-- What admits equality still does so when its variables are bound to types
of which as much is true as their names say. -/
theorem Store.Resolves.admitsBy {unfold : TypeEnv → Ty → Except TypeFault Ty}
    {behind : TypeEnv → Ty → Option Bool}
    (hbehind : ∀ {env other : TypeEnv} {type : Ty}, env.Trusts False H other → type.BuiltFrom H →
      behind env type = some true → behind other type = some true)
    (hbindings : ∀ {name binding}, store.get? name = some binding →
      binding.type.BuiltFrom H ∧ (isEqualityName name = true →
        admitsBy unfold behind binding.type env = some true)) {type result : Ty}
    (h : store.Resolves env type result) (htype : type.BuiltFrom H)
    (htrusts : env.Trusts False H other)
    (hadmits : admitsBy unfold behind type other = some true) :
    admitsBy unfold behind result other = some true := by
  induction h generalizing other with
  | any => exact hadmits
  | unbound => rwa [admitsBy] at hadmits ⊢
  | bound domain free hbinding _ ih =>
    obtain ⟨hbuilt, hbound⟩ := hbindings hbinding
    rw [admitsBy, Option.some.injEq] at hadmits
    exact ih hbuilt htrusts (admitsBy_mono False.elim hbehind htrusts hbuilt (hbound hadmits))
  | bind binder domain free _ ih =>
    exact ih (builtFrom_bind.mp htype) htrusts hadmits
  | record complete f _ ih =>
    rw [builtFrom_record] at htype
    rw [admitsBy, fieldsAdmitBy_iff] at hadmits ⊢
    exact forall_mem_map.mpr fun field hfield =>
      ih field hfield (htype field hfield) htrusts (hadmits field hfield)
  | arrow => rw [admitsBy] at hadmits; cases hadmits
  | @con head arguments f _ _ ih =>
    obtain ⟨hhead, harguments⟩ := builtFrom_con.mp htype
    have hexpands : other.expands head = false := by
      rw [htrusts.expands hhead]
      exact TypeEnv.expands_eq_false (hclosed.unfolded hhead)
    rw [admitsBy_con hexpands, allAdmitBy_iff] at hadmits
    have hshown : other.expands (env.shown head) = false := hexpands
    rw [admitsBy_con hshown, allAdmitBy_iff]
    refine hadmits.imp_right fun hboth => ⟨hboth.1, forall_mem_map.mpr fun argument hargument => ?_⟩
    exact ih argument hargument (harguments argument hargument)
      (htrusts.inside_right hdeclared _) (hboth.2 argument hargument)
  | tuple _ ih =>
    refine ih htype.simplify htrusts ?_
    rwa [admitsBy_simplify]
    refine htrusts.isUnfolded htype (isUnfolded_iff_builtFrom.mpr ?_)
    exact fun entry hentry => hclosed.unfolded (htype entry hentry)

end Closed

/-! ## Merging -/

theorem Ty.admitsEquality_var (env : TypeEnv) (name : String) (domain : List Ty) (free : Bool) :
    (var name domain free).admitsEquality env = some (isEqualityName name) := by
  obtain ⟨room, hroom⟩ := exists_admitsEquality_eq
  rw [hroom, admitsBy]

/-- Types over declared types and names of a set, and stores in which what an
equality variable is bound to admits equality. -/
def equalityVocabulary (env : TypeEnv) (H : TyCon → Nat → Prop)
    (N : String → Prop) : Vocabulary where
  anys := True
  heads := H
  names := N
  occurs := fun _ _ _ => True
  good := fun store => ∀ name binding, store.get? name = some binding →
    isEqualityName name = true → binding.type.admitsEquality env = some true

section Merging

variable {H : TyCon → Nat → Prop} {N : String → Prop} {env : TypeEnv} (hclosed : env.Closed False H)
  (hnames : ∀ {name}, N name → isVariable name = true ∨ isInternal name = true)
  (hapart : ∀ {name}, N name → ¬ N (equalityName name))
include hclosed hnames hapart

omit hclosed hapart in
private theorem isEqualityName_equalityName_of_names (hname : N name) :
    isEqualityName (equalityName name) = true := by
  obtain ⟨c, rest, hlist, _⟩ := exists_of_isVariable (hnames hname)
  exact (isEqualityName_iff _).mpr ⟨c :: rest, by simp [equalityName, hlist]⟩

omit hclosed hapart in
private theorem isEqualityName_of_lt {survivor victim : String}
    (hsurvivor : (equalityVocabulary env H N).InUse store survivor) (hlt : survivor < victim)
    (hvictim : isEqualityName victim = true) : isEqualityName survivor = true := by
  obtain hname | ⟨original, horiginal, _, _, rfl⟩ := hsurvivor
  · by_contra hnot
    exact String.lt_asymm hlt (lt_of_isEqualityName (hnames hname) hvictim
      (Bool.eq_false_iff.mpr hnot))
  · exact isEqualityName_equalityName_of_names hnames horiginal

theorem equalityVocabulary_lawful : (equalityVocabulary env H N).Lawful env where
  hidden := hclosed.hidden
  unfolded := hclosed.unfolded
  equality := isEqualityName_equalityName_of_names hnames
  apart := hapart
  narrowed := fun _ _ _ => trivial
  step := by
    intro store name type next hsound hstep
    refine ⟨?_, fun _ => trivial, fun _ => trivial⟩
    obtain ⟨free, hget⟩ := hstep.get?_eq
    intro other binding hbinding hequality
    rw [hget] at hbinding
    split at hbinding
    · rename_i heq
      subst heq
      cases hbinding
      cases hstep with
      | join free hsurvivor _ hlt =>
        rw [admitsEquality_var, isEqualityName_of_lt hnames hsurvivor.inUse hlt hequality]
      | convert free _ hnot =>
        rw [hequality] at hnot
        cases hnot
      | bind free _ hformed _ _ hadmits =>
        obtain ⟨depth, hadmits⟩ := hadmits hequality
        exact admitsWithin_mono False.elim (.refl hclosed) hformed.made.builtFrom hadmits
    · exact hsound.good other binding hbinding hequality

end Merging

theorem Ty.mergeVariables_of_merge {env : TypeEnv} {next : Store}
    {firstDomain secondDomain : List Ty} {firstFree secondFree : Bool} {merged : Ty}
    (hfirst : store.get? first = none) (hsecond : store.get? second = none)
    (h : merge env store (var first firstDomain firstFree)
      (var second secondDomain secondFree) = .ok (merged, next)) :
    mergeVariables store ⟨first, store.narrow first firstDomain, firstFree⟩
      ⟨second, store.narrow second secondDomain, secondFree⟩ = .ok (merged, next) := by
  have hinstantiate : ∀ {depth name domain free}, store.get? name = none →
      instantiateTo (depth + 1) env [] store (var name domain free) =
        .ok (var name (store.narrow name domain) free) := by
    intro depth name domain free hname
    rw [instantiateTo, hname, narrow]
    cases store.domain? name <;> rfl
  rw [merge] at h
  obtain ⟨depth, hdepth⟩ : ∃ depth, unfoldingRoom + 16 * ((var first firstDomain firstFree).size +
        (var second secondDomain secondFree).size + store.weight +
        store.size) = depth + 2 :=
    ⟨unfoldingRoom - 2 + 16 * ((var first firstDomain firstFree).size +
      (var second secondDomain secondFree).size + store.weight + store.size),
      by rw [unfoldingRoom]; omega⟩
  rw [hdepth, mergeTo] at h
  · simp only [hinstantiate hfirst, hinstantiate hsecond, Except.mapError, ok_bind] at h
    exact h
  · intro heq
    cases heq

theorem Ty.exists_survivor {next : Store} {this that : Binder} {merged : Ty}
    (h : mergeVariables store this that = .ok (merged, next))
    (hthis : store.get? this.name = none) (hthat : store.get? that.name = none)
    (hsome : ∃ name ∈ [this.name, that.name], isEqualityName name = true)
    (hnames : ∀ name ∈ [this.name, that.name], isEqualityName name = false →
      isVariable name = true ∨ isInternal name = true) :
    ∃ survivor domain free, merged = var survivor domain free ∧
      isEqualityName survivor = true ∧ next.get? survivor = none ∧
      ∀ name ∈ [this.name, that.name], name ≠ survivor →
        (next.get? name).map (·.type) = some merged := by
  obtain ⟨_, ⟨hsame, rfl, rfl⟩ | ⟨survivor, victim, hboth, hlt, rfl, rfl⟩⟩ := mergeVariables_eq_ok h
  · simp only [← hsame, mem_cons, not_mem_nil, or_false, or_self,
      exists_eq_left, forall_eq] at hsome ⊢
    exact ⟨_, _, _, rfl, hsome, hthis, fun hne => (hne rfl).elim⟩
  · have hmem : ∀ name, name ∈ [this.name, that.name] ↔
        name = survivor.name ∨ name = victim.name := by
      rcases hboth with ⟨rfl, rfl⟩ | ⟨rfl, rfl⟩ <;> simp [or_comm]
    simp only [hmem] at hsome hnames ⊢
    have hequality : isEqualityName survivor.name = true := by
      obtain ⟨name, rfl | rfl, hname⟩ := hsome
      · exact hname
      · by_contra hnot
        have hnot := Bool.eq_false_iff.mpr hnot
        exact String.lt_asymm hlt (lt_of_isEqualityName (hnames _ (.inl rfl) hnot) hname hnot)
    refine ⟨_, _, _, rfl, hequality, ?_, ?_⟩
    · rw [get?_join, if_neg (ne_of_gt hlt)]
      rcases hboth with ⟨rfl, rfl⟩ | ⟨rfl, rfl⟩
      · exact hthis
      · exact hthat
    · rintro name (rfl | rfl) hne
      · exact (hne rfl).elim
      · rw [get?_join, if_pos rfl]
        rfl

/-- Where every type with arguments is declared, an equality variable that is
bound stands for a type that admits equality, and one that is merged with
another variable leaves an equality variable, to which the other is bound. -/
theorem Store.Reached.equalityVariables_admit {env : TypeEnv} {H : TyCon → Nat → Prop}
    {N : String → Prop} {store : Store} (hclosed : env.Closed False H)
    (hdeclared : ∀ {head count}, H head count →
      count = 0 ∨ (env.type? head.path head.name).isSome = true)
    (hnames : ∀ {name}, N name → isVariable name = true ∨ isInternal name = true)
    (hapart : ∀ {name}, N name → ¬ N (equalityName name))
    (hreached : store.Reached env (Ty.MadeOf True H fun name _ => N name)) :
    (∀ {name binding domain free}, store.get? name = some binding → isEqualityName name = true →
        ∃ result, instantiate env store (.var name domain free) =
          .ok result ∧ result.admitsEquality env = some true) ∧
    ∀ {first second : Ty.Binder} {merged next},
      store.get? first.name = none → store.get? second.name = none →
      (∃ name ∈ [first.name, second.name], Ty.isEqualityName name = true) →
      (∀ name ∈ [first.name, second.name], Ty.isEqualityName name = false →
        isVariable name = true ∨ isInternal name = true) →
      Ty.merge env store (.var first.name first.domain first.free)
        (.var second.name second.domain second.free) = .ok (merged, next) →
        ∃ survivor domain free, merged = .var survivor domain free ∧
          Ty.isEqualityName survivor = true ∧ next.get? survivor = none ∧
          ∀ name ∈ [first.name, second.name], name ≠ survivor →
            (next.get? name).map (·.type) = some merged := by
  have hsound : (equalityVocabulary env H N).Sound env store := by
    refine (equalityVocabulary_lawful hclosed hnames hapart).sound
      (fun _ _ hbinding => nomatch hbinding) (fun htype _ _ => ?_) hreached
    exact htype.mono (fun hhead => hhead) fun hname => ⟨.inl hname, trivial⟩
  refine ⟨?_, fun hfirst hsecond hsome hother hmerge => ?_⟩
  · intro name binding domain free hbinding hequality
    obtain ⟨result, hresult⟩ := hsound.acyclic.exists_resolves
      (fun hhead => hhead.2) hsound.formed (hsound.formed hbinding)
    have hresolves := Store.Resolves.bound domain free hbinding hresult
    obtain ⟨room, hroom⟩ := exists_admitsEquality_eq
    refine ⟨result, hresolves.instantiate_eq, ?_⟩
    rw [hroom]
    refine hresolves.admitsBy hclosed hdeclared
      (admitsWithin_mono False.elim) ?_ (builtFrom_var _ _ _)
      (.refl hclosed) ?_
    · intro name binding hbinding
      refine ⟨(hsound.formed hbinding).made.builtFrom, fun hequality => ?_⟩
      rw [← hroom]
      exact hsound.good _ _ hbinding hequality
    · rw [← hroom, admitsEquality_var, hequality]
  · have hjoin := mergeVariables_of_merge hfirst hsecond hmerge
    have hsurvivor := exists_survivor hjoin hfirst hsecond hsome hother
    exact hsurvivor

/-- Boxes of values of any type, declared in a structure. -/
def boxEnv : TypeEnv where
  type? path name :=
    if path = ["S"] ∧ name = "box" then
      some { type := .con { name := "box", path := ["S"] } [.plain "'a"],
             constructors := ["Box"], arity := 1, equality := true }
    else none
  value? path name :=
    if path = ["S"] ∧ name = "Box" then
      some { type := .arrow (.plain "'a")
              (.con { name := "box", path := ["S"] } [.plain "'a"]),
             status := .constructor }
    else none
  assumed? _ _ := none

def box (path : List String) (content : Ty) : Ty := .con { name := "box", path } [content]

theorem boxEnv_closed
    (hhidden : ∀ {head count} (hidden : Bool), H head count → H { head with hidden } count) :
    boxEnv.Closed False H where
  hidden := hhidden
  abbreviations := by
    intro head count info abbreviation _ hinfo habbreviation
    obtain ⟨hinfo, _⟩ := Option.filter_eq_some_iff.mp hinfo
    simp only [boxEnv, Option.ite_none_right_eq_some, Option.some.injEq] at hinfo
    obtain ⟨_, rfl⟩ := hinfo
    cases habbreviation
  constructors := by
    intro head count info constructor argument _ _ _ hargument
    obtain ⟨value, hvalue, hargument⟩ := Option.bind_eq_some_iff.mp hargument
    simp only [boxEnv, Option.ite_none_right_eq_some, Option.some.injEq] at hvalue
    obtain ⟨_, rfl⟩ := hvalue
    cases hargument
    exact builtFrom_var _ _ _

/-- An equality variable is a box, of which the content is found later. -/
def boxStore (name : String) (content : Ty) : Store :=
  (Store.merged boxEnv {} (.plain "''a") (box ["S"] (.plain name))).merged
    boxEnv (.plain name) content

theorem boxStore_reached {N : String → Prop} (hbox : H { name := "box", path := ["S"] } 1)
    (hvariable : N "''a") (hname : N name) {content : Ty}
    (hcontent : content.MadeOf True H fun name _ => N name) :
    (boxStore name content).Reached boxEnv (Ty.MadeOf True H fun name _ => N name) := by
  have hbox : (box ["S"] (.plain name)).MadeOf True H fun name _ => N name :=
    .con hbox (forall_mem_singleton.mpr (.var false hname))
  exact (Store.Reached.empty.merged (.var false hvariable) hbox).merged (.var false hname) hcontent

/-- The variable in the box becomes an equality variable, which is then an
integer. -/
theorem Store.Reached.equalityVariables_admit_box :
    (boxStore "'b" .int).Reached boxEnv (Ty.MadeOf True
        (fun head count => count = 0 ∨ head.path = ["S"] ∧ head.name = "box")
        fun name _ => name ∈ ["''a", "'b"]) ∧
      (∃ result, Ty.instantiate boxEnv (boxStore "'b" .int) (.plain "''a") =
        .ok result ∧ result.admitsEquality boxEnv = some true) ∧
      ∃ survivor domain free next,
        Ty.merge boxEnv (boxStore "'b" .int) (.plain "'c") (.plain "''d") =
          .ok (.var survivor domain free, next) ∧
        Ty.isEqualityName survivor = true := by
  have hclosed : boxEnv.Closed False fun head count =>
      count = 0 ∨ head.path = ["S"] ∧ head.name = "box" :=
    boxEnv_closed fun _ hhead => hhead
  have hreached : (boxStore "'b" .int).Reached boxEnv (Ty.MadeOf True
      (fun head count => count = 0 ∨ head.path = ["S"] ∧ head.name = "box")
      fun name _ => name ∈ ["''a", "'b"]) :=
    boxStore_reached (by decide) (by decide) (by decide)
      (.con (by decide) (by simp))
  have hdeclared : ∀ {head : TyCon} {count : Nat},
      count = 0 ∨ head.path = ["S"] ∧ head.name = "box" →
        count = 0 ∨ (boxEnv.type? head.path head.name).isSome = true := by
    intro head count hhead
    exact hhead.imp_right fun hbox => by simp only [boxEnv, if_pos hbox]; rfl
  obtain ⟨hbound, hjoined⟩ := hreached.equalityVariables_admit hclosed hdeclared
    (fun hname => (by decide : ∀ name ∈ ["''a", "'b"], isVariable name = true ∨
      isInternal name = true) _ hname)
    (fun hname => (by decide : ∀ name ∈ ["''a", "'b"],
      equalityName name ∉ ["''a", "'b"]) _ hname)
  refine ⟨hreached, ?_, ?_⟩
  · obtain ⟨binding, hbinding⟩ := Option.isSome_iff_exists.mp
      (by decide +kernel : ((boxStore "'b" .int).get? "''a").isSome = true)
    exact hbound hbinding (by decide +kernel)
  · obtain ⟨⟨merged, next⟩, hmerge⟩ := Option.isSome_iff_exists.mp (by decide +kernel :
      (Ty.merge boxEnv (boxStore "'b" .int) (.plain "'c") (.plain "''d")).toOption.isSome = true)
    have hmerge := eq_ok_of_toOption hmerge
    obtain ⟨survivor, domain, free, rfl, hequality, _⟩ :=
      @hjoined ⟨"'c", [], false⟩ ⟨"''d", [], false⟩ _ _
        (Option.isNone_iff_eq_none.mp (by decide +kernel))
        (Option.isNone_iff_eq_none.mp (by decide +kernel))
        (by decide +kernel) (by decide +kernel) hmerge
    exact ⟨survivor, domain, free, next, hmerge, hequality⟩

/-- The type of the content is not found, so that its argument is not looked
at when the variable is bound. -/
theorem Store.Reached.equalityVariables_admit_hidden : boxEnv.Closed False (fun _ _ => True) ∧
      (∀ name ∈ ["''a", "''b"], isVariable name = true ∧ equalityName name ∉ ["''a", "''b"]) ∧
      (boxStore "''b" (box [] (.arrow .int .int))).Reached boxEnv (Ty.MadeOf True (fun _ _ => True)
          fun name _ => name ∈ ["''a", "''b"]) ∧
      (instantiate boxEnv (boxStore "''b" (box [] (.arrow .int .int)))
        (.plain "''a")).toOption.bind (admitsEquality boxEnv) = some false := by
  have hint : int.MadeOf True (fun _ _ => True)
      fun name _ => name ∈ ["''a", "''b"] := .con trivial (by simp)
  refine ⟨boxEnv_closed fun _ _ => trivial, by decide, ?_, by decide +kernel⟩
  exact boxStore_reached trivial (by decide) (by decide)
    (.con trivial (List.forall_mem_singleton.mpr (.arrow hint hint)))

end Sml
