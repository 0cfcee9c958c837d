import Sml.Elaboration.Matching
import Sml.Proofs.Soundness

/-!
# When one scheme is as general as another

A scheme is at least as general as another if every instance of the other is
an instance of it.  Its own bound variables may stand for anything, but a
variable that it does not bind stands for what the store says.

Matching merges the two bodies with new variables for all that are bound, and
then looks whether those of the second scheme are still variables and all
different.  That shows the first scheme to be general enough only if all its
other variables are settled, that is, stand for types without variables.
-/

namespace Sml

open List Option Term Ty Table

variable {name : String}
variable {store : Store} {σ : Subst} {env : TypeEnv} {scheme : Ty} {standIns : Table String}
  {fragment : Fragment}

namespace Ty

def unquantified (scheme : Ty) : List String := scheme.unquantify.2.variableNames.filter fun name =>
    !(scheme.unquantify.1.map Binder.name).contains name

/-- Every instance of the second scheme is an instance of the first, in which
a variable that is not bound stands for what it is instantiated to. -/
def AtLeastAsGeneral (env : TypeEnv) (store : Store) (first second : Ty) : Prop :=
  ∀ constants, Definite constants → ∃ types, Definite types ∧ (∀ name ∈ first.unquantified,
      (plain name).instantiate env store = .ok (types name)) ∧
    (first.unquantify.2.replace types).same (second.unquantify.2.replace constants) = true

/-- Every variable that the scheme does not bind stands for a type without
variables. -/
def IsSettled (env : TypeEnv) (store : Store) (scheme : Ty) : Prop :=
  ∀ name ∈ scheme.unquantified, ∃ type,
    (plain name).instantiate env store = .ok type ∧ type.variableNames = []

/-- The scheme leads to the variable by way of variables it does not bind. -/
def Reaches (store : Store) (scheme : Ty) (name : String) : Prop := ∃ first ∈ scheme.unquantified,
    Relation.ReflTransGen store.Depends first name

/-- A scheme over a regular type that leads to regular types only. -/
structure IsRegularScheme (env : TypeEnv) (store : Store) (scheme : Ty) : Prop where
  body : scheme.unquantify.2.isRegular env = true
  binders : ∀ binder ∈ scheme.unquantify.1, binder.free = false
  reached : ∀ {name binding}, scheme.Reaches store name →
    store.get? name = some binding → binding.type.isRegular env = true

/-- A scheme over a regular type that binds all its variables. -/
structure IsClosedScheme (env : TypeEnv) (scheme : Ty) : Prop where
  body : scheme.unquantify.2.isRegular env = true
  closed : scheme.unquantified = []

theorem eq_of_unquantify_nil {body : Ty} (h : scheme.unquantify = ([], body)) : scheme = body := by
  cases scheme with
  | bind name domain free inner => simp [unquantify] at h
  | _ => simpa [unquantify] using h

theorem mem_unquantified (h : scheme.unquantify.2.isIn fragment = true) :
    name ∈ scheme.unquantified ↔ name ∈ scheme.unquantify.2.term.vars ∧
        name ∉ scheme.unquantify.1.map Binder.name := by
  rw [unquantified, mem_filter, mem_variableNames (isQuantifierFree_of_isIn h)]
  simp

theorem mem_binders_of_closed (h : scheme.unquantify.2.isIn fragment = true)
    (hclosed : scheme.unquantified = []) (hname : name ∈ scheme.unquantify.2.term.vars) :
    name ∈ scheme.unquantify.1.map Binder.name := by
  by_contra hnot
  have hmem := (mem_unquantified h).mpr ⟨hname, hnot⟩
  simp [hclosed] at hmem

end Ty

/-! ## What a settled scheme leads to -/

theorem Store.Solves.mem_vars_of_path (hσ : store.Solves σ) {other : String}
    (hpath : Relation.ReflTransGen store.Depends name other) (hunbound : store.get? other = none) :
    other ∈ (σ name).vars := by
  induction hpath using Relation.ReflTransGen.head_induction_on with
  | refl =>
    rw [hσ.unbound other hunbound]
    simp
  | head hstep _ ih =>
    obtain ⟨binding, hbinding, hinner⟩ := hstep
    rw [hσ.bound _ binding hbinding, mem_vars_subst]
    exact ⟨_, hinner, ih⟩

theorem Ty.IsRegularScheme.exists_reading (h : scheme.IsRegularScheme env store)
    (hacyclic : store.Acyclic) (names : List String)
    (hnames : ∀ name ∈ names, store.get? name = none) :
    ∃ reading : Reading env store, reading.known = fun name =>
      scheme.Reaches store name ∨ name ∈ names := by
  apply Reading.exists_of_acyclic hacyclic
  · rintro name binding (hname | hname) hbinding
    · exact h.reached hname hbinding
    · simp [hnames name hname] at hbinding
  · rintro name other (⟨first, hfirst, hpath⟩ | hname) hdepends
    · exact .inl ⟨first, hfirst, hpath.tail hdepends⟩
    · obtain ⟨binding, hbinding, _⟩ := hdepends
      simp [hnames name hname] at hbinding

/-- A scheme that is general enough leaves no variable open: the other scheme
has instances without variables. -/
theorem Ty.AtLeastAsGeneral.isSettled {first second : Ty}
    (h : AtLeastAsGeneral env store first second) (hacyclic : store.Acyclic)
    (hfirst : first.IsRegularScheme env store)
    (hsecond : second.unquantify.2.isRegular env = true) : first.IsSettled env store := by
  obtain ⟨types, htypes, hresolved, hsame⟩ := h (fun _ => unit) fun _ => rfl
  obtain ⟨reading, hknown⟩ := hfirst.exists_reading hacyclic [] (by simp)
  rw [same_iff (isAnyFree_replace htypes (isAnyFree_of_isIn hfirst.body))
    (isAnyFree_replace (fun _ => rfl) (isAnyFree_of_isIn hsecond)),
    term_replace, term_replace] at hsame
  intro name hname
  refine ⟨types name, hresolved name hname, ?_⟩
  have hreached : reading.known name := by
    rw [hknown]
    exact .inl ⟨name, hname, .refl⟩
  have hregular := (reading.instantiate_plain hreached (hresolved name hname)).1
  apply eq_nil_iff_forall_not_mem.mpr
  intro other hother
  rw [mem_variableNames (isQuantifierFree_of_isIn hregular)] at hother
  have hground : other ∈ (first.unquantify.2.term.subst fun name => (types name).term).vars :=
    (mem_vars_subst _ _ _).mpr ⟨name, ((mem_unquantified hfirst.body).mp hname).1, hother⟩
  rw [hsame, mem_vars_subst] at hground
  obtain ⟨_, _, hnone⟩ := hground
  simp [unit] at hnone

section Settled

variable {env : TypeEnv} {store : Store} {scheme : Ty} (hsettled : scheme.IsSettled env store)
  {names : List String} {reading : Reading env store}
  (hknown : reading.known = fun name => scheme.Reaches store name ∨ name ∈ names)

include hsettled hknown

theorem Ty.IsSettled.meaning (hname : name ∈ scheme.unquantified) :
    (reading.meaning name).vars = [] ∧ ∃ type, (plain name).instantiate env store = .ok type ∧
        type.isRegular env = true ∧ type.term = reading.meaning name := by
  obtain ⟨type, htype, hnone⟩ := hsettled name hname
  have hreached : reading.known name := by
    rw [hknown]
    exact .inl ⟨name, hname, .refl⟩
  obtain ⟨hregular, hterm⟩ := reading.instantiate_plain hreached htype
  refine ⟨?_, type, htype, hregular, hterm⟩
  apply eq_nil_iff_forall_not_mem.mpr
  intro other hother
  rw [← hterm, ← mem_variableNames (isQuantifierFree_of_isIn hregular), hnone] at hother
  simp at hother

theorem Ty.IsSettled.bound (hname : scheme.Reaches store name)
    (hunbound : store.get? name = none) : False := by
  obtain ⟨first, hfirst, hpath⟩ := hname
  have hmem := reading.solves.mem_vars_of_path hpath hunbound
  rw [(hsettled.meaning hknown hfirst).1] at hmem
  simp at hmem

end Settled

/-! ## New variables -/

/-- Names that are not in use, nor the names that would replace them. -/
structure Store.IsFresh (store : Store) (names : List String) : Prop where
  unbound : ∀ name ∈ names, store.get? name = none
  replaced : ∀ name ∈ names, isEqualityName name = false →
    isEqualityName (equalityName name) = true ∧ equalityName name ∉ names ∧
      store.get? (equalityName name) = none

theorem Ty.IsSettled.apart (hsettled : scheme.IsSettled env store) {names : List String}
    (hnames : store.IsFresh names) {reading : Reading env store}
    (hknown : reading.known = fun name => scheme.Reaches store name ∨ name ∈ names) :
    reading.Apart := by
  intro name hname hunbound hequality
  rw [hknown] at hname ⊢
  rcases hname with hname | hname
  · exact (hsettled.bound hknown hname hunbound).elim
  · obtain ⟨hnew, hother, hfree⟩ := hnames.replaced name hname hequality
    refine ⟨hnew, ?_, hfree⟩
    rintro (hreached | hmem)
    · exact hsettled.bound hknown hreached hfree
    · exact hother hmem

/-! ## Merging the bodies -/

/-- The variables that have to stay variables are still variables, and all
different. -/
theorem meaning_of_areRigid (reading : Reading env store) {seen : List String}
    (hknown : ∀ entry ∈ standIns, reading.known entry.2)
    (h : Elab.areRigid env store seen standIns = .ok true) :
    (∀ entry ∈ standIns, ∃ name, name ∉ seen ∧ reading.meaning entry.2 = .var name) ∧
      ∀ entry ∈ standIns, ∀ other ∈ standIns,
        reading.meaning entry.2 = reading.meaning other.2 → entry = other := by
  induction standIns generalizing seen with
  | nil => simp
  | cons first rest ih =>
    obtain ⟨source, standIn⟩ := first
    rw [Elab.areRigid] at h
    split at h
    · cases h
    · rename_i name domain free hname
      have hmeaning := (reading.instantiate_plain (hknown _ mem_cons_self) hname).2
      split at h
      · rename_i hnew
        obtain ⟨hrest, hdifferent⟩ := ih (fun entry hentry => hknown entry (by simp [hentry])) h
        have hapart : ∀ entry ∈ rest, reading.meaning entry.2 ≠ reading.meaning standIn := by
          intro entry hentry heq
          obtain ⟨other, hother, hmeaningOther⟩ := hrest entry hentry
          rw [hmeaningOther] at heq
          have hsame := hmeaning.trans heq.symm
          simp only [Ty.term_var, Term.var.injEq] at hsame
          simp [hsame] at hother
        constructor
        · intro entry hentry
          rcases mem_cons.mp hentry with rfl | hentry
          · exact ⟨name, by simpa using (Bool.and_eq_true_iff.mp hnew).2, hmeaning.symm⟩
          · obtain ⟨other, hother, hmeaningOther⟩ := hrest entry hentry
            exact ⟨other, fun hmem => hother (by simp [hmem]), hmeaningOther⟩
        · intro entry hentry other hother heq
          rcases mem_cons.mp hentry with rfl | hentry
          · rcases mem_cons.mp hother with rfl | hother
            · rfl
            · exact (hapart other hother heq.symm).elim
          · rcases mem_cons.mp hother with rfl | hother
            · exact (hapart entry hentry heq).elim
            · exact hdifferent entry hentry other hother heq
      · cases h
    · cases h

/-- A new variable was made for the name and is of its kind. -/
def MadeFor (origin : String → String) (name new : String) : Prop :=
  origin new = name ∧ isEqualityName new = isEqualityName name

/-- New variables for the bound ones of two schemes: some that have to stay
variables for the one, and some that may become anything for the other. -/
structure Renewed (names : List String) (first second : Ty)
    (instances : Table Ty) (standIns : Table String) : Prop where
  bound : ∀ name ∈ first.unquantify.1.map Ty.Binder.name, ∃ new ∈ names,
    ∃ binder ∈ first.unquantify.1, get? instances name = some (.var new binder.domain false)
  unbound : ∀ name ∉ first.unquantify.1.map Ty.Binder.name, get? instances name = none
  rigid : ∀ name ∈ second.unquantify.1.map Ty.Binder.name,
    ∃ new, get? standIns name = some new
  held : ∀ entry ∈ standIns, entry.1 ∈ second.unquantify.1.map Ty.Binder.name
  known : ∀ entry ∈ standIns, entry.2 ∈ names
  ordered : Table.Ordered standIns
  origin : ∃ origin, (∀ entry ∈ standIns, MadeFor origin entry.1 entry.2) ∧
    ∀ name new domain free, get? instances name = some (.var new domain free) →
      MadeFor origin name new

open Classical in
private noncomputable def chosen (σ : Subst) (standIns : Table String)
    (constants : String → Ty) (name : String) : Ty :=
  if h : ∃ entry ∈ standIns, σ entry.2 = .var name then
    constants h.choose.1
  else .unit

variable {constants : String → Ty}

private theorem chosen_eq
    (hdifferent : ∀ entry ∈ standIns, ∀ other ∈ standIns, σ entry.2 = σ other.2 → entry = other)
    {entry : String × String} (hentry : entry ∈ standIns) (hname : σ entry.2 = .var name) :
    chosen σ standIns constants name = constants entry.1 := by
  have hexists : ∃ entry ∈ standIns, σ entry.2 = .var name := ⟨entry, hentry, hname⟩
  rw [chosen, dif_pos hexists, hdifferent _ hexists.choose_spec.1 entry hentry
    (hexists.choose_spec.2.trans hname.symm)]

private theorem definite_chosen (h : Ty.Definite constants) :
    Ty.Definite (chosen σ standIns constants) := by
  intro name
  rw [chosen]
  split
  · exact h _
  · rfl

section Merge

variable {env : TypeEnv} {store store' : Store} {first second merged : Ty} {names : List String}
  {instances : Table Ty} {standIns : Table String}
  (hrenewed : Renewed names first second instances standIns) {reading : Reading env store}

include hrenewed

theorem Renewed.covers_first (hfirst : first.IsRegularScheme env store)
    (hknown : reading.known = fun name => first.Reaches store name ∨ name ∈ names) :
    reading.Covers (first.unquantify.2.substitute instances) := by
  constructor
  · apply isIn_substitute hfirst.body
    intro name _ other hother
    by_cases hname : name ∈ first.unquantify.1.map Ty.Binder.name
    · obtain ⟨new, _, _, _, hnew⟩ := hrenewed.bound name hname
      cases hother.symm.trans hnew
      rfl
    · cases hother.symm.trans (hrenewed.unbound name hname)
  · intro inner hinner
    rw [term_substitute (isQuantifierFree_of_isIn hfirst.body), mem_vars_subst] at hinner
    obtain ⟨name, hname, hinner⟩ := hinner
    rw [hknown]
    by_cases hbound : name ∈ first.unquantify.1.map Ty.Binder.name
    · obtain ⟨new, hmem, _, _, hnew⟩ := hrenewed.bound name hbound
      simp only [hnew, map_some, getD_some, Ty.term_var, vars_var, mem_singleton] at hinner
      exact .inr (hinner ▸ hmem)
    · simp only [hrenewed.unbound name hbound, map_none,
        getD_none, vars_var, mem_singleton] at hinner
      rw [hinner]
      exact .inl ⟨name, (mem_unquantified hfirst.body).mpr ⟨hname, hbound⟩, .refl⟩

theorem Renewed.get?_standIns (hsecond : second.IsClosedScheme env)
    (hname : name ∈ second.unquantify.2.term.vars) :
    ∃ new ∈ names, (name, new) ∈ standIns ∧ get? standIns name = some new := by
  obtain ⟨new, hnew⟩ := hrenewed.rigid name
    (mem_binders_of_closed hsecond.body hsecond.closed hname)
  have hmem := mem_of_get? hnew
  exact ⟨new, hrenewed.known _ hmem, hmem, hnew⟩

theorem Renewed.covers_second (hsecond : second.IsClosedScheme env)
    (hknown : ∀ name ∈ names, reading.known name) :
    reading.Covers (second.unquantify.2.rename standIns) := by
  refine ⟨isIn_rename hsecond.body fun _ _ _ _ _ _ => rfl, fun inner hinner => ?_⟩
  rw [term_rename (isQuantifierFree_of_isIn hsecond.body), mem_vars_subst] at hinner
  obtain ⟨name, hname, hinner⟩ := hinner
  obtain ⟨new, hmem, _, hnew⟩ := hrenewed.get?_standIns hsecond hname
  rw [hnew, getD_some, vars_var, mem_singleton] at hinner
  exact hknown inner (hinner ▸ hmem)

/-- What the variables of the first scheme become when those that stay
variables are put for anything. -/
private theorem exists_types (hfirst : first.IsRegularScheme env store)
    (hsettled : first.IsSettled env store)
    (hknown : reading.known = fun name => first.Reaches store name ∨ name ∈ names)
    {next : Reading env store'} (hlater : reading.Later next) (hconstants : Ty.Definite constants)
    (name : String) :
    ∃ type : Ty, type.isAnyFree = true ∧ (name ∈ first.unquantified →
        (Ty.plain name).instantiate env store = .ok type) ∧
      (name ∈ first.unquantify.2.term.vars → type.term =
        ((((get? instances name).map Ty.term).getD (.var name)).subst
          next.meaning).subst fun other => (constants other).term) := by
  by_cases hbound : name ∈ first.unquantify.1.map Ty.Binder.name
  · obtain ⟨new, hmem, _, _, hnew⟩ := hrenewed.bound name hbound
    have hnewKnown : reading.known new := by
      rw [hknown]
      exact .inr hmem
    obtain ⟨type, hregular, hterm⟩ := next.typed (hlater.known new hnewKnown)
    refine ⟨type.replace constants,
      isAnyFree_replace hconstants (isAnyFree_of_isIn hregular), ?_, ?_⟩
    · intro hname
      exact absurd hbound ((mem_unquantified hfirst.body).mp hname).2
    · intro _
      rw [term_replace, hterm, hnew]
      rfl
  · by_cases hname : name ∈ first.unquantified
    · obtain ⟨hclosed, type, htype, hregular, hterm⟩ := hsettled.meaning hknown hname
      refine ⟨type, isAnyFree_of_isIn hregular, fun _ => htype, fun _ => ?_⟩
      rw [hrenewed.unbound name hbound, map_none, getD_none, subst_var, ← hlater.absorbs name,
        subst_of_vars_eq_nil hclosed, subst_of_vars_eq_nil hclosed,
        hterm]
    · refine ⟨.unit, rfl, fun h => absurd h hname, fun hmem => ?_⟩
      exact absurd ((mem_unquantified hfirst.body).mpr ⟨hmem, hbound⟩) hname

theorem Renewed.atLeastAsGeneral (hacyclic : store.Acyclic)
    (hfirst : first.IsRegularScheme env store) (hsettled : first.IsSettled env store)
    (hsecond : second.IsClosedScheme env) (hnames : store.IsFresh names)
    (hmerge : merge env store (second.unquantify.2.rename standIns)
      (first.unquantify.2.substitute instances) = .ok (merged, store'))
    (hrigid : Elab.areRigid env store' [] standIns = .ok true) :
    Ty.AtLeastAsGeneral env store first second := by
  obtain ⟨reading, hknown⟩ := hfirst.exists_reading hacyclic names hnames.unbound
  have hnamesKnown : ∀ name ∈ names, reading.known name := by
    intro name hname
    rw [hknown]
    exact .inr hname
  obtain ⟨next, hlater, _, hequal⟩ := Reading.merges_mergeTo _ _
    (hsettled.apart hnames hknown) (hrenewed.covers_second hsecond hnamesKnown)
    (hrenewed.covers_first hfirst hknown) hmerge
  obtain ⟨hvariables, hdifferent⟩ := meaning_of_areRigid next (fun entry hentry => hlater.known _
      (hnamesKnown _ (hrenewed.known entry hentry))) hrigid
  intro constants hconstants
  have hchosen : Ty.Definite (chosen next.meaning standIns constants) := definite_chosen hconstants
  choose types htypes hresolved hterms using
    exists_types hrenewed hfirst hsettled hknown hlater hchosen
  refine ⟨types, htypes, fun name hname => hresolved name hname, ?_⟩
  rw [same_iff (isAnyFree_replace htypes (isAnyFree_of_isIn hfirst.body))
    (isAnyFree_replace hconstants (isAnyFree_of_isIn hsecond.body)),
    term_replace, term_replace]
  have hfirstTerm := term_substitute (isQuantifierFree_of_isIn hfirst.body) instances
  have hsecondTerm := term_rename (isQuantifierFree_of_isIn hsecond.body) standIns
  rw [hfirstTerm, hsecondTerm] at hequal
  calc first.unquantify.2.term.subst (fun name => (types name).term)
      = ((first.unquantify.2.term.subst fun name =>
            ((get? instances name).map Ty.term).getD (.var name)).subst next.meaning).subst
          fun other => (chosen next.meaning standIns constants other).term := by
        rw [subst_subst, subst_subst]
        apply subst_congr
        intro name hname
        rw [hterms name hname, subst_subst]
    _ = ((second.unquantify.2.term.subst fun name =>
            .var ((get? standIns name).getD name)).subst
          next.meaning).subst
          fun other => (chosen next.meaning standIns constants other).term := by
        rw [hequal]
    _ = second.unquantify.2.term.subst fun name => (constants name).term := by
        rw [subst_subst, subst_subst]
        apply subst_congr
        intro name hname
        obtain ⟨new, _, hmem, hnew⟩ := hrenewed.get?_standIns hsecond hname
        obtain ⟨stays, _, hstays⟩ := hvariables _ hmem
        rw [hnew, getD_some, subst_var, hstays, subst_var, chosen_eq hdifferent hmem hstays]

end Merge

end Sml
