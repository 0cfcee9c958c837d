import Sml.Proofs.Reading

/-!
# Merging makes types equal

Whenever merging succeeds on regular types, there is a reading of the new
store, later than the one before, in which the two types are equal.  This
holds with equality variables and with domains too.

To make a variable admit equality a new one is put in its place, which has its
name with one more quote.  That is sound as long as a variable and its
replacement are not both in use.
-/

namespace Sml

open List Store Table Term Ty

variable {name : String} {free : Bool} {domain : List Ty}
variable {depth : Nat} {instantiate : Store → Ty → Except TypeFault Ty}

namespace Reading

variable {env : TypeEnv} {store store' store'' : Store}
variable {reading : Reading env store} {next : Reading env store'}

/-- Unbound variables that do not admit equality can be replaced by ones that
do: what would replace them is not in use. -/
def Apart (reading : Reading env store) : Prop :=
  ∀ name, reading.known name → store.get? name = none → isEqualityName name = false →
      isEqualityName (equalityName name) = true ∧ ¬ reading.known (equalityName name) ∧
        store.get? (equalityName name) = none

theorem Apart.bind (h : reading.Apart) (hname : reading.known name) {type : Ty}
    {next : Reading env (store.bind name type free)} (hknown : next.known = reading.known) :
    next.Apart := by
  intro other hother hunbound hequality
  rw [hknown] at hother ⊢
  rw [get?_bind] at hunbound
  split at hunbound
  · cases hunbound
  · obtain ⟨hnew, hunknown, hfree⟩ := h other hother hunbound hequality
    refine ⟨hnew, hunknown, ?_⟩
    rw [get?_bind, if_neg]
    · exact hfree
    · rintro rfl
      exact hunknown hname

/-! ## Turning variables into equality variables -/

/-- A later reading in which variables are replaced by new ones at most. -/
structure Converts (reading : Reading env store) (next : Reading env store') : Prop where
  later : reading.Later next
  bound : ∀ {name}, (store.get? name).isSome = true → (store'.get? name).isSome = true
  fixed : ∀ {name}, isEqualityName name = true →
    reading.meaning name = .var name → next.meaning name = .var name
  new : ∀ {name other}, other ∈ (next.meaning name).vars →
    other ∈ (reading.meaning name).vars ∨ ¬ reading.known other

theorem Converts.refl (reading : Reading env store) : reading.Converts reading :=
  ⟨.refl reading, id, fun _ => id, .inl⟩

theorem Converts.trans {first : Reading env store} {second : Reading env store'}
    {third : Reading env store''} (hsecond : first.Converts second)
    (hthird : second.Converts third) : first.Converts third where
  later := hsecond.later.trans hthird.later
  bound h := hthird.bound (hsecond.bound h)
  fixed hequality h := hthird.fixed hequality (hsecond.fixed hequality h)
  new h := by
    rcases hthird.new h with h | h
    · exact hsecond.new h
    · exact .inr fun hknown => h (hsecond.later.known _ hknown)

structure Converted (reading : Reading env store) (type result : Ty)
    (next : Reading env store') : Prop where
  converts : reading.Converts next
  apart : next.Apart
  covers : next.Covers result
  equal : result.term.subst next.meaning = type.term.subst next.meaning

theorem converted_self (hapart : reading.Apart) {type : Ty} (htype : reading.Covers type) :
    reading.Converted type type reading :=
  ⟨.refl reading, hapart, htype, rfl⟩

theorem exists_converted_var (reading : Reading env store) (hapart : reading.Apart)
    (hname : reading.known name) (hunbound : store.get? name = none)
    (hequality : isEqualityName name = false) (domain : List Ty) (free : Bool) :
    ∃ next : Reading env (store.bind name (.var (equalityName name) domain free) free),
      reading.Converted (.var name domain free) (.var (equalityName name) domain free) next := by
  obtain ⟨hnew, hunknown, hfree⟩ := hapart name hname hunbound hequality
  have hne : name ≠ equalityName name := by
    intro heq
    rw [← heq, hequality] at hnew
    cases hnew
  let middle := reading.learn hfree
  have hlearned : middle.known (equalityName name) := Or.inr rfl
  have htype := covers_var hlearned domain free
  have hmeaning : reading.meaning (equalityName name) =
      .var (equalityName name) := reading.solves.unbound _ hfree
  have hoccurs : name ∉ ((Ty.var (equalityName name) domain
      free).term.subst middle.meaning).vars := by
    change name ∉ (reading.meaning (equalityName name)).vars
    rw [hmeaning, vars_var, mem_singleton]
    exact hne
  let next := middle.bind hunbound htype hoccurs free
  have hnext : ∀ other, next.meaning other = (reading.meaning other).subst
      (.single name (.var (equalityName name))) := by
    intro other
    change ((reading.meaning other).subst (Subst.single name
      (reading.meaning (equalityName name)))) = _
    rw [hmeaning]
  refine ⟨next, ⟨?_, ?_, ?_, ?_⟩, ?_, ⟨htype.regular, htype.known⟩, ?_⟩
  · exact (reading.learn_later hfree).trans (middle.bind_later hunbound htype hoccurs free)
  · intro other hother
    rw [get?_bind]
    split
    · rfl
    · exact hother
  · intro other hotherEquality hother
    rw [hnext, hother, subst_var, Subst.single, if_neg]
    rintro rfl
    rw [hequality] at hotherEquality
    cases hotherEquality
  · intro other inner hinner
    rw [hnext] at hinner
    obtain ⟨replaced, hreplaced, hinner⟩ := (mem_vars_subst _ _ _).mp hinner
    rw [Subst.single] at hinner
    split at hinner
    · rw [mem_singleton.mp hinner]
      exact .inr hunknown
    · rw [mem_singleton.mp hinner]
      exact .inl hreplaced
  · intro other hother hotherUnbound hotherEquality
    rw [get?_bind] at hotherUnbound
    split at hotherUnbound
    · cases hotherUnbound
    · rename_i hotherName
      rcases hother with hother | rfl
      · obtain ⟨hotherNew, hotherUnknown, hotherFree⟩ :=
          hapart other hother hotherUnbound hotherEquality
        have hreplacement : equalityName other ≠ equalityName name := by
          intro heq
          exact hotherName (equalityName_injective heq).symm
        refine ⟨hotherNew, ?_, ?_⟩
        · rintro (hknown | heq)
          · exact hotherUnknown hknown
          · exact hreplacement heq
        · rw [get?_bind, if_neg]
          · exact hotherFree
          · rintro rfl
            exact hotherUnknown hname
      · rw [hnew] at hotherEquality
        cases hotherEquality
  · exact (middle.meaning_bind hunbound htype hoccurs free).symm

theorem exists_converted_all {convert : Store → Ty → Except TypeFault (Ty × Store)}
    (hconvert : ∀ {store store'} (reading : Reading env store),
      reading.Apart → ∀ {type result}, reading.Covers type →
        convert store type = .ok (result, store') →
        ∃ next : Reading env store', reading.Converted type result next)
    (reading : Reading env store) (hapart : reading.Apart)
    {types results : List Ty} (htypes : ∀ type ∈ types, reading.Covers type)
    (h : threadStore convert store types = .ok (results, store')) :
    ∃ next : Reading env store', reading.Converts next ∧ next.Apart ∧
      (∀ result ∈ results, next.Covers result) ∧
      results.map (fun type => type.term.subst next.meaning) =
        types.map fun type => type.term.subst next.meaning := by
  induction types generalizing store results with
  | nil =>
    cases h
    exact ⟨reading, .refl reading, hapart, by simp, rfl⟩
  | cons type types ih =>
    obtain ⟨⟨first, middle⟩, hfirst, hrest⟩ := bind_eq_ok h
    obtain ⟨⟨others, last⟩, hothers, hdone⟩ := bind_eq_ok hrest
    cases hdone
    obtain ⟨next, hnext⟩ := hconvert reading hapart (htypes type (by simp)) hfirst
    obtain ⟨final, hconverts, hfinal, hcovers, hequal⟩ := ih next hnext.apart
      (fun type htype => (htypes type (by simp [htype])).later hnext.converts.later) hothers
    refine ⟨final, hnext.converts.trans hconverts, hfinal, ?_, ?_⟩
    · intro result hresult
      rcases mem_cons.mp hresult with rfl | hresult
      · exact hnext.covers.later hconverts.later
      · exact hcovers result hresult
    · rw [map_cons, hequal, hconverts.later.equal hnext.equal, map_cons]

theorem Converted.rebind {binding : Binding} {result : Ty}
    (h : reading.Converted binding.type result next) (hbinding : store.get? name = some binding)
    (hname : reading.known name) (domain : List Ty) (free : Bool) :
    ∃ last : Reading env (store'.bind name result binding.free),
      reading.Converted (.var name domain free) result last := by
  have hmeaning : result.term.subst next.meaning = next.meaning name := by
    rw [h.equal, ← h.converts.later.absorbs name, reading.solves.bound name binding hbinding,
      h.converts.later.absorbs.subst]
  have hstill : (store'.get? name).isSome = true := h.converts.bound (by simp [hbinding])
  obtain ⟨old, hold⟩ := Option.isSome_iff_exists.mp hstill
  let last := next.rebind hold h.covers hmeaning binding.free
  have hconverts : next.Converts last := by
    refine ⟨⟨fun _ hother => hother, next.absorbs_self⟩, ?_, fun _ => id, .inl⟩
    intro other hother
    rw [get?_bind]
    split
    · rfl
    · exact hother
  exact ⟨last, h.converts.trans hconverts, h.apart.bind (h.converts.later.known name hname) rfl,
    ⟨h.covers.regular, h.covers.known⟩, hmeaning⟩

theorem exists_converted (depth : Nat) (reading : Reading env store) (hapart : reading.Apart)
    {type result : Ty} (htype : reading.Covers type)
    (h : makeEqTo depth env store type = .ok (result, store')) :
    ∃ next : Reading env store', reading.Converted type result next := by
  induction depth generalizing store store' type result with
  | zero => simp [makeEqTo] at h
  | succ depth ih =>
    have hself := converted_self hapart htype
    cases type with
    | any | bind => exact absurd htype.regular (by simp)
    | arrow parameter output =>
      cases h
      exact ⟨reading, hself⟩
    | tuple elements =>
      obtain ⟨next, hnext⟩ := ih reading hapart (htype.of_term_eq
        (isIn_simplify htype.regular) (term_simplify _)) h
      exact ⟨next, hnext.converts, hnext.apart, hnext.covers, by rw [hnext.equal, term_simplify]⟩
    | var name domain free =>
      have hname := htype.known name (by simp)
      rw [makeEqTo] at h
      split at h
      · cases h
        exact ⟨reading, hself⟩
      · rename_i hequality
        cases hbinding : store.get? name with
        | none =>
          rw [hbinding] at h
          cases h
          exact reading.exists_converted_var hapart hname hbinding
            (Bool.eq_false_iff.mpr hequality) domain free
        | some binding =>
          rw [hbinding] at h
          obtain ⟨⟨inner, middle⟩, hinner, hdone⟩ := bind_eq_ok h
          cases hdone
          obtain ⟨next, hnext⟩ := ih reading hapart ⟨reading.regular hname hbinding,
              reading.closed hname hbinding⟩ hinner
          exact hnext.rebind hbinding hname domain free
    | record fields complete =>
      obtain ⟨rfl, hordered, _⟩ := (isIn_record _ _).mp htype.regular
      obtain ⟨⟨types, middle⟩, htypes, hdone⟩ := bind_eq_ok h
      cases hdone
      obtain ⟨next, hconverts, hnext, hcovers, hequal⟩ := exists_converted_all ih reading hapart
          (forall_mem_map.mpr fun _ hfield => htype.part rfl (mem_map_of_mem hfield)) htypes
      have hlength : types.length = fields.length := by simpa using congrArg List.length hequal
      have hkeys : keys ((fields.map (·.1)).zip types) = keys fields := by
        rw [Table.keys, map_fst_zip (by simp [hlength]), Table.keys]
      have hvalues : ((fields.map (·.1)).zip types).map (·.2) = types :=
        map_snd_zip (by simp [hlength])
      have hmem : ∀ field ∈ (fields.map (·.1)).zip types,
          next.Covers field.2 := fun field hfield =>
        hcovers _ (hvalues ▸ mem_map.mpr ⟨field, hfield, rfl⟩)
      refine ⟨next, hconverts, hnext, ⟨?_, ?_⟩, ?_⟩
      · rw [isRegular, isIn_record, Ordered, hkeys]
        exact ⟨rfl, hordered, fun field hfield => (hmem field hfield).regular⟩
      · intro name hname
        obtain ⟨field, hfield, hname⟩ := (mem_vars_record _ _ _).mp hname
        exact (hmem field hfield).known name hname
      · rw [← hvalues, map_map, map_map] at hequal
        rw [term_record, term_record, hkeys, subst_node, subst_node, map_map, map_map]
        exact congrArg _ hequal
    | con head arguments =>
      obtain ⟨expanded, hexpanded, hrest⟩ := bind_eq_ok h
      obtain ⟨other, others, rfl, hsame⟩ :=
        (reading.isInstance_of_instantiateTo htype hexpanded).exists_con
      simp only [hsame, if_true, pure_bind] at hrest
      split at hrest
      · cases hrest
        exact ⟨reading, hself⟩
      · obtain ⟨⟨types, middle⟩, htypes, hdone⟩ := bind_eq_ok hrest
        cases hdone
        obtain ⟨hregular, _⟩ := (isIn_con _ _).mp htype.regular
        obtain ⟨next, hconverts, hnext, hcovers, hequal⟩ := exists_converted_all ih reading hapart
            (fun _ hargument => htype.part rfl hargument) htypes
        refine ⟨next, hconverts, hnext, ⟨?_, ?_⟩, ?_⟩
        · exact (isIn_con _ _).mpr ⟨hregular,
            fun argument hargument => (hcovers argument hargument).regular⟩
        · intro name hname
          obtain ⟨argument, hargument, hname⟩ := (mem_vars_con _ _ _).mp hname
          exact (hcovers argument hargument).known name hname
        · exact (con_subst_eq_iff _ _ _ _ _).mpr ⟨by simp [TyCon.same], hequal⟩

/-! ## Variables -/

def Equates (reading : Reading env store) (store' : Store) (left right : Ty) : Prop :=
  ∃ next : Reading env store', reading.Later next ∧ next.Apart ∧
    left.term.subst next.meaning = right.term.subst next.meaning

variable {left right merged : Ty}

theorem Equates.symm (h : reading.Equates store' left right) :
    reading.Equates store' right left := by
  obtain ⟨next, hlater, hnext, hequal⟩ := h
  exact ⟨next, hlater, hnext, hequal.symm⟩

/-- An instance may take the place of a type. -/
theorem equates_instance {next : Ty → Merging} (hright : reading.Covers right)
    (hnext : ∀ that, IsInstance (.regular env) reading.meaning right that → reading.Covers that →
      next that = .ok (merged, store') → reading.Equates store' left that)
    (h : (instantiateTo depth env [] store right).mapError .fault >>= next =
      .ok (merged, store')) : reading.Equates store' left right := by
  obtain ⟨that, hthat, hrest⟩ := mapError_bind_eq_ok h
  have hinstance := reading.isInstance_of_instantiateTo hright hthat
  obtain ⟨last, hlater, hlast, hequal⟩ :=
    hnext that hinstance (hright.isInstance hinstance) hrest
  exact ⟨last, hlater, hlast, by rw [hequal, hinstance.term, hlater.absorbs.subst]⟩

structure Opens (reading : Reading env store) (name : String) : Prop where
  known : reading.known name
  unbound : store.get? name = none

theorem Opens.meaning (h : reading.Opens name) : reading.meaning name = .var name :=
  reading.solves.unbound name h.unbound

theorem opens_of_isInstance {type : Ty} (htype : reading.Covers type)
    (h : IsInstance (.regular env) reading.meaning type (.var name domain free)) :
    reading.Opens name := by
  have hmem : name ∈ (type.term.subst reading.meaning).vars := by
    rw [← h.term]
    simp
  refine ⟨htype.known_subst hmem, ?_⟩
  obtain ⟨inner, _, hinner⟩ := (mem_vars_subst _ _ _).mp hmem
  exact reading.settled hinner

private theorem equates_join (hapart : reading.Apart) {survivor victim : Binder}
    (hsurvivor : reading.Opens survivor.name) (hvictim : reading.Opens victim.name)
    (hlt : survivor.name < victim.name) (domain : List Ty) (free : Bool) :
    reading.Equates (store.join survivor.name victim.name domain free)
      (.var survivor.name survivor.domain survivor.free)
      (.var victim.name victim.domain victim.free) := by
  have htype := covers_var hsurvivor.known domain free
  have hoccurs : victim.name ∉
      ((Ty.var survivor.name domain free).term.subst reading.meaning).vars := by
    rw [term_var, subst_var, hsurvivor.meaning, vars_var, mem_singleton]
    exact hlt.ne'
  let next := reading.bind hvictim.unbound htype hoccurs free
  have hlater := reading.bind_later hvictim.unbound htype hoccurs free
  have hnext : next.Apart := hapart.bind hvictim.known rfl
  obtain ⟨domains, hjoin⟩ : ∃ domains, store.join survivor.name victim.name domain free =
      { store.bind victim.name (.var survivor.name domain free) free with domains } := by
    rw [join]
    split <;> exact ⟨_, rfl⟩
  rw [hjoin]
  exact ⟨next.withDomains domains, ⟨hlater.known, hlater.absorbs⟩, hnext,
    (reading.meaning_bind hvictim.unbound htype hoccurs free).symm⟩

theorem equates_variables (hapart : reading.Apart) (this that : Binder)
    (hthis : reading.Opens this.name) (hthat : reading.Opens that.name)
    (h : mergeVariables store this that = .ok (merged, store')) :
    reading.Equates store' (.var this.name this.domain this.free)
      (.var that.name that.domain that.free) := by
  obtain ⟨_, ⟨heq, _, rfl⟩ | ⟨survivor, victim, hboth, hlt, _, rfl⟩⟩ := mergeVariables_eq_ok h
  · exact ⟨reading, .refl reading, hapart, by rw [term_var, heq]; rfl⟩
  · rcases hboth with ⟨rfl, rfl⟩ | ⟨rfl, rfl⟩
    · exact equates_join hapart hthis hthat hlt _ _
    · exact (equates_join hapart hthat hthis hlt _ _).symm

theorem Covers.mark {other : Ty} (h : reading.Covers other) (binder : Binder) :
    reading.Covers (binder.mark other) :=
  h.of_term_eq (isIn_mark h.regular binder) (term_mark _ binder)

theorem equates_bindTo (hapart : reading.Apart) (binder : Binder) {other : Ty}
    (hbinder : reading.Opens binder.name) (hother : reading.Covers other)
    (hinstance : other.term.subst reading.meaning = other.term)
    (h : bindTo depth env store binder other = .ok (merged, store')) :
    reading.Equates store' (.var binder.name binder.domain binder.free) other := by
  cases depth with
  | zero => simp [bindTo] at h
  | succ depth =>
    obtain ⟨hcontains, middle, hmiddle, _, rfl⟩ := bindTo_eq_ok_iff.mp h
    have hoccurs : binder.name ∉ other.term.vars := by
      rw [← contains_variableDomains_false (isQuantifierFree_of_isIn hother.regular), hcontains]
      simp
    have hcovers := hother.mark binder
    obtain ⟨next, hnext, hmeaning⟩ : ∃ next : Reading env middle,
        reading.Converted (binder.mark other) merged next ∧
          next.meaning binder.name = .var binder.name := by
      rcases hmiddle with ⟨rfl, rfl, _⟩ | ⟨hequality, _, hconverted, _⟩
      · exact ⟨reading, converted_self hapart hcovers, hbinder.meaning⟩
      · obtain ⟨next, hnext⟩ := exists_converted depth reading hapart hcovers hconverted
        exact ⟨next, hnext, hnext.converts.fixed hequality hbinder.meaning⟩
    have hlater := hnext.converts.later
    have hself : binder.name ∈ (next.meaning binder.name).vars := by
      rw [hmeaning]
      simp
    have hunbound := next.settled hself
    have hequal := hnext.equal
    rw [term_mark] at hequal
    -- Only new variables can have come in, and this one is not new.
    have hstill : binder.name ∉ (merged.term.subst next.meaning).vars := by
      rw [hequal, mem_vars_subst]
      rintro ⟨inner, hinner, hmem⟩
      rcases hnext.converts.new hmem with hold | hnew
      · apply hoccurs
        rw [← hinstance, mem_vars_subst]
        exact ⟨inner, hinner, hold⟩
      · exact hnew hbinder.known
    let last := next.bind hunbound hnext.covers hstill binder.free
    have hlast := next.bind_later hunbound hnext.covers hstill binder.free
    refine ⟨last, hlater.trans hlast, hnext.apart.bind (hlater.known _ hbinder.known) rfl, ?_⟩
    rw [term_var, subst_var, next.meaning_bind hunbound hnext.covers hstill binder.free,
      hlast.equal hequal]

/-! ## Parts -/

/-- Enough is known of a merging function to merge the parts of types. -/
def Merges (env : TypeEnv) (merge : Store → Ty → Ty → Merging) : Prop :=
  ∀ {store store'} (reading : Reading env store), reading.Apart →
    ∀ {left right merged}, reading.Covers left → reading.Covers right →
      merge store left right = .ok (merged, store') → reading.Equates store' left right

section Parts

variable {merge : Store → Ty → Ty → Merging} (hmerge : Merges env merge) (hapart : reading.Apart)

include hmerge hapart

theorem exists_equates_pairs {lefts rights merged : List Ty}
    (hlength : lefts.length = rights.length) (hlefts : ∀ left ∈ lefts, reading.Covers left)
    (hrights : ∀ right ∈ rights, reading.Covers right)
    (h : mergePairs merge store (lefts.zip rights) = .ok (merged, store')) :
    ∃ next : Reading env store', reading.Later next ∧ next.Apart ∧
      lefts.map (fun left => left.term.subst next.meaning) =
        rights.map fun right => right.term.subst next.meaning := by
  induction lefts generalizing store rights merged with
  | nil =>
    obtain rfl := length_eq_zero_iff.mp hlength.symm
    cases h
    exact ⟨reading, .refl reading, hapart, rfl⟩
  | cons left lefts ih =>
    obtain ⟨right, rights, rfl⟩ := exists_cons_of_length_eq_add_one hlength.symm
    rw [zip_cons_cons, mergePairs] at h
    obtain ⟨⟨first, middle⟩, hfirst, hrest⟩ := bind_eq_ok h
    obtain ⟨⟨others, last⟩, hothers, hdone⟩ := bind_eq_ok hrest
    cases hdone
    obtain ⟨next, hlater, hnext, hequal⟩ := hmerge reading hapart (hlefts left (by simp))
      (hrights right (by simp)) hfirst
    obtain ⟨final, hfinal, hfinalApart, hrest⟩ := ih hnext (Nat.succ.inj hlength)
      (fun left hleft => (hlefts left (by simp [hleft])).later hlater)
      (fun right hright => (hrights right (by simp [hright])).later hlater) hothers
    refine ⟨final, hlater.trans hfinal, hfinalApart, ?_⟩
    rw [map_cons, hrest, hfinal.equal hequal, map_cons]

theorem equates_cons {this that : TyCon}
    {thisArguments thatArguments : List Ty} (hthis : reading.Covers (.con this thisArguments))
    (hthat : reading.Covers (.con that thatArguments))
    (h : mergeCons merge store this thisArguments that thatArguments = .ok (merged, store')) :
    reading.Equates store' (.con this thisArguments) (.con that thatArguments) := by
  rw [mergeCons] at h
  split at h
  · rename_i halike
    rw [Bool.and_eq_true, beq_iff_eq] at halike
    obtain ⟨⟨types, last⟩, hpairs, hdone⟩ := bind_eq_ok h
    cases hdone
    obtain ⟨next, hlater, hnext, hequal⟩ := exists_equates_pairs hmerge hapart halike.2
      (fun _ hargument => hthis.part rfl hargument)
      (fun _ hargument => hthat.part rfl hargument) hpairs
    exact ⟨next, hlater, hnext, (con_subst_eq_iff _ _ _ _ _).mpr ⟨halike.1, hequal⟩⟩
  · cases h

private theorem exists_equates_common {disagree : MergeFault}
    {this that found found' : List (String × Ty)} (hthis : ∀ field ∈ this, reading.Covers field.2)
    (hthat : ∀ field ∈ that, reading.Covers field.2) (h : that.foldlM (fun found field =>
          match get? this field.1 with
          | some own => mergeField merge found own field
          | none => addField instantiate disagree true found field)
        (found, store) = .ok (found', store')) :
    ∃ next : Reading env store', reading.Later next ∧ next.Apart ∧
      (∀ label, label ∈ keys found' ↔ label ∈ keys found ∨ label ∈ keys that) ∧
      ∀ field ∈ that, ∃ own, get? this field.1 = some own ∧
        own.term.subst next.meaning = field.2.term.subst next.meaning := by
  induction that generalizing store found with
  | nil =>
    cases h
    exact ⟨reading, .refl reading, hapart, by simp, by simp⟩
  | cons field that ih =>
    rw [foldlM_cons] at h
    obtain ⟨⟨more, middle⟩, hfirst, hrest⟩ := bind_eq_ok h
    cases hown : get? this field.1 with
    | none =>
      rw [hown] at hfirst
      cases hfirst
    | some own =>
      rw [hown] at hfirst
      obtain ⟨⟨merged, last⟩, hmerged, hdone⟩ := bind_eq_ok hfirst
      cases hdone
      obtain ⟨next, hlater, hnext, hequal⟩ := hmerge reading hapart
        (hthis _ (mem_of_get? hown)) (hthat field (by simp)) hmerged
      obtain ⟨final, hfinal, hfinalApart, hkeys, hothers⟩ := ih hnext
        (fun field hfield => (hthis field hfield).later hlater)
        (fun field hfield => (hthat field (by simp [hfield])).later hlater) hrest
      refine ⟨final, hlater.trans hfinal, hfinalApart, ?_,
        forall_mem_cons.mpr ⟨⟨own, hown, hfinal.equal hequal⟩, hothers⟩⟩
      intro label
      rw [hkeys, mem_keys_insert, Table.keys_cons, mem_cons]
      tauto

theorem equates_fields {this that : List (String × Ty)}
    (hthis : reading.Covers (.record this true)) (hthat : reading.Covers (.record that true))
    (h : mergeFields merge instantiate store this true that true = .ok (merged, store')) :
    reading.Equates store' (.record this true) (.record that true) := by
  obtain ⟨_, hthisOrdered, _⟩ := (isIn_record _ _).mp hthis.regular
  obtain ⟨_, hthatOrdered, _⟩ := (isIn_record _ _).mp hthat.regular
  rw [mergeFields] at h
  obtain ⟨⟨found, middle⟩, hcommon, hrest⟩ := bind_eq_ok h
  obtain ⟨next, hlater, hnext, hkeys, hequal⟩ := exists_equates_common hmerge hapart
    (fun _ hfield => hthis.part rfl (mem_map_of_mem hfield))
    (fun _ hfield => hthat.part rfl (mem_map_of_mem hfield)) hcommon
  rw [foldlM_addField] at hrest
  split at hrest
  · rename_i hall
    cases hrest
    refine ⟨next, hlater, hnext, ?_⟩
    rw [record_subst_eq_iff _ hthisOrdered hthatOrdered]
    exact ⟨hequal, fun field hfield => by simpa using (hkeys field.1).mp (hall field hfield)⟩
  · cases hrest

theorem equates_arrow {parameter result parameter' result' first second : Ty}
    (hthis : reading.Covers (.arrow parameter result))
    (hthat : reading.Covers (.arrow parameter' result'))
    (hparameter : merge store parameter parameter' = .ok (first, store'))
    (hresult : merge store' result result' = .ok (second, store'')) :
    reading.Equates store'' (.arrow parameter result) (.arrow parameter' result') := by
  obtain ⟨next, hlater, hnext, hequal⟩ := hmerge reading hapart
    (hthis.part rfl (by simp [components])) (hthat.part rfl (by simp [components])) hparameter
  obtain ⟨final, hfinal, hfinalApart, hresultEqual⟩ := hmerge next hnext
    ((hthis.part rfl (by simp [components])).later hlater)
    ((hthat.part rfl (by simp [components])).later hlater) hresult
  exact ⟨final, hlater.trans hfinal, hfinalApart, by simp [hfinal.equal hequal, hresultEqual]⟩

end Parts

/-! ## The recursion -/

theorem merges_mergeTo (depth : Nat) : Merges env (mergeTo depth env) := by
  induction depth with
  | zero =>
    intro store store' reading _ left right merged _ _ h
    simp [mergeTo] at h
  | succ depth ih =>
    intro store store' reading hapart left right merged hleft hright h
    unfold mergeTo at h
    split at h
    · exact absurd hleft.regular (by simp)
    · exact absurd hleft.regular (by simp)
    · have hequates := ih reading hapart (hleft.of_term_eq (isIn_simplify hleft.regular)
        (term_simplify _)) hright h
      rwa [Equates, term_simplify] at hequates
    · exact absurd hright.regular (by simp)
    · refine (equates_instance hleft (fun this hthis hthisCovers hrest => .symm ?_) h).symm
      split at hrest
      · -- The variable is not bound.
        have hopens := opens_of_isInstance hleft hthis
        refine equates_instance hright (fun that hthat hcovers hrest => ?_) hrest
        split at hrest
        · exact equates_variables hapart ⟨_, _, _⟩ ⟨_, _, _⟩ hopens
            (opens_of_isInstance hright hthat) hrest
        · exact absurd hcovers.regular (by simp)
        · exact equates_bindTo hapart ⟨_, _, _⟩ hopens hcovers
            (by rw [hthat.term, reading.absorbs_self.subst]) hrest
      · obtain ⟨⟨inner, middle⟩, hinner, hdone⟩ := bind_eq_ok hrest
        simp only [isResolved_of_isIn hthisCovers.regular, if_true] at hdone
        cases hdone
        exact ih reading hapart hthisCovers hright hinner
    · exact (ih reading hapart hright hleft h).symm
    · refine equates_instance hright (fun that hthat hcovers hrest => ?_) h
      split at hrest
      · obtain ⟨rfl, _⟩ := (isIn_record _ _).mp hleft.regular
        obtain ⟨rfl, _⟩ := (isIn_record _ _).mp hcovers.regular
        exact equates_fields ih hapart hleft hcovers hrest
      · exact (ih reading hapart hcovers hleft hrest).symm
      · exact absurd hcovers.regular (by simp)
      · cases hrest
    · refine equates_instance hright (fun that hthat hcovers hrest => ?_) h
      split at hrest
      · obtain ⟨⟨first, middle⟩, hfirst, hrest⟩ := bind_eq_ok hrest
        obtain ⟨⟨second, last⟩, hsecond, hdone⟩ := bind_eq_ok hrest
        cases hdone
        exact equates_arrow ih hapart hleft hcovers hfirst hsecond
      · exact (ih reading hapart hcovers hleft hrest).symm
      · exact absurd hcovers.regular (by simp)
      · cases hrest
    · refine (equates_instance hleft (fun this hthis hthisCovers hrest => .symm ?_) h).symm
      split at hrest
      · refine equates_instance hright (fun that hthat hcovers hrest => ?_) hrest
        split at hrest
        · exact equates_cons ih hapart hthisCovers hcovers hrest
        · exact (ih reading hapart hcovers hthisCovers hrest).symm
        · exact absurd hcovers.regular (by simp)
        · cases hrest
      · exact ih reading hapart hthisCovers hright hrest

end Reading

end Sml
