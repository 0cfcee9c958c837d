import Sml.Proofs.Instances
import Sml.Proofs.Merged

/-!
# Readings of a store

A reading says what the variables of a store stand for.  It need not know all
of them: what the known ones lead to is known and regular, and nothing is said
of the others.  A step that binds a variable leads from a reading to a later
one, in which all equations that held still hold.
-/

namespace Sml

open List Store Term Ty

variable {type instantiated : Ty} {free : Bool}

structure Reading (env : TypeEnv) (store : Store) where
  meaning : Subst
  known : String → Prop
  solves : store.Solves meaning
  settled : ∀ {name other}, other ∈ (meaning name).vars → store.get? other = none
  regular : ∀ {name binding}, known name →
    store.get? name = some binding → binding.type.isRegular env = true
  closed : ∀ {name binding}, known name → store.get? name = some binding →
      ∀ other ∈ binding.type.term.vars, known other
  typed : ∀ {name}, known name → ∃ type : Ty, type.isRegular env = true ∧ type.term = meaning name
  knows : ∀ {name other}, known name → other ∈ (meaning name).vars → known other

namespace Reading

variable {env : TypeEnv} {store store' store'' : Store} {name : String}

theorem absorbs_self (reading : Reading env store) : reading.meaning.Absorbs reading.meaning := by
  intro name
  calc (reading.meaning name).subst reading.meaning = (reading.meaning name).subst .var :=
        subst_congr fun other hother => reading.solves.unbound other (reading.settled hother)
    _ = reading.meaning name := subst_var_eq_self _

structure Covers (reading : Reading env store) (type : Ty) : Prop where
  regular : type.isRegular env = true
  known : ∀ name ∈ type.term.vars, reading.known name

theorem covers_var {reading : Reading env store} (h : reading.known name)
    (domain : List Ty) (free : Bool) : reading.Covers (.var name domain free) := by
  refine ⟨rfl, fun other hother => ?_⟩
  rwa [mem_singleton.mp hother]

structure Later (reading : Reading env store) (next : Reading env store') : Prop where
  known : ∀ name, reading.known name → next.known name
  absorbs : next.meaning.Absorbs reading.meaning

theorem Later.refl (reading : Reading env store) : reading.Later reading :=
  ⟨fun _ hname => hname, reading.absorbs_self⟩

theorem Later.trans {first : Reading env store} {second : Reading env store'}
    {third : Reading env store''} (hsecond : first.Later second)
    (hthird : second.Later third) : first.Later third where
  known name hname := hthird.known name (hsecond.known name hname)
  absorbs := hthird.absorbs.trans hsecond.absorbs

theorem Later.equal {reading : Reading env store} {next : Reading env store'}
    (h : reading.Later next) {left right : Term}
    (hequal : left.subst reading.meaning = right.subst reading.meaning) :
    left.subst next.meaning = right.subst next.meaning := by
  rw [← h.absorbs.subst, hequal, h.absorbs.subst]

section Covers

variable {reading : Reading env store} {type : Ty}

section

variable (h : reading.Covers type)
include h

theorem Covers.later {next : Reading env store'} (hlater : reading.Later next) : next.Covers type :=
  ⟨h.regular, fun name hname => hlater.known name (h.known name hname)⟩

theorem Covers.of_term_eq {other : Ty} (hregular : other.isRegular env = true)
    (hterm : other.term = type.term) : reading.Covers other :=
  ⟨hregular, hterm ▸ h.known⟩

theorem Covers.part (hvar : type.isVar = false) {part : Ty} (hpart : part ∈ type.components) :
    reading.Covers part where
  regular := ((isIn_iff_fits _).mp h.regular).2 part hpart
  known name hname := h.known name ((mem_vars_iff hvar name).mpr ⟨part, hpart, hname⟩)

theorem Covers.known_subst (hname : name ∈ (type.term.subst reading.meaning).vars) :
    reading.known name := by
  obtain ⟨inner, hinner, hname⟩ := (mem_vars_subst _ _ _).mp hname
  exact reading.knows (h.known inner hinner) hname

theorem Covers.isInstance
    (hinstance : Ty.IsInstance (.regular env) reading.meaning type instantiated) :
    reading.Covers instantiated where
  regular := hinstance.isIn
  known _ hname := h.known_subst (hinstance.term ▸ hname)

theorem Covers.typed_subst :
    ∃ other : Ty, other.isRegular env = true ∧ other.term = type.term.subst reading.meaning := by
  have htyped : ∀ name ∈ type.term.vars, ∃ other : Ty,
      other.isRegular env = true ∧ other.term = reading.meaning name :=
    fun name hname => reading.typed (h.known name hname)
  choose! types hregular hterm using htyped
  refine ⟨type.replace types, ?_, ?_⟩
  · exact isIn_mapVariables h.regular fun name hname _ _ _ => hregular name hname
  · rw [term_replace]
    exact subst_congr hterm

end

end Covers

/-! ## The beginning -/

/-- A store without cycles has a reading that knows any given variables, if
these lead to no others and to regular types only. -/
theorem exists_of_acyclic (hacyclic : store.Acyclic) {known : String → Prop}
    (hregular : ∀ {name binding}, known name →
      store.get? name = some binding → binding.type.isRegular env = true)
    (hclosed : ∀ {name other}, known name → store.Depends name other → known other) :
    ∃ reading : Reading env store, reading.known = known := by
  obtain ⟨σ, hσ⟩ := hacyclic.exists_solves
  have hchild : ∀ {name binding}, known name → store.get? name = some binding →
        ∀ other ∈ binding.type.term.vars, known other :=
    fun hname hbinding other hother => hclosed hname ⟨_, hbinding, hother⟩
  have htyped : ∀ name, known name →
      ∃ type : Ty, type.isRegular env = true ∧ type.term = σ name := by
    intro name
    induction name using hσ.induct hacyclic with
    | unbound name _ hname => exact fun _ => ⟨.plain name, rfl, hname.symm⟩
    | bound name binding hbinding hname ih =>
      intro hknown
      choose! types htypes hterm using fun other hother =>
        ih other hother (hchild hknown hbinding other hother)
      refine ⟨binding.type.replace types, ?_, ?_⟩
      · exact isIn_mapVariables (hregular hknown hbinding) fun other hother _ _ _ =>
          htypes other hother
      · rw [term_replace, hname]
        exact subst_congr hterm
  have hknows : ∀ name, known name → ∀ other ∈ (σ name).vars, known other := by
    intro name
    induction name using hσ.induct hacyclic with
    | unbound name _ hname =>
      intro hknown other hother
      rw [hname, vars_var, mem_singleton] at hother
      exact hother ▸ hknown
    | bound name binding hbinding hname ih =>
      intro hknown other hother
      rw [hname, mem_vars_subst] at hother
      obtain ⟨inner, hinner, hother⟩ := hother
      exact ih inner hinner (hchild hknown hbinding inner hinner) other hother
  exact ⟨{
    meaning := σ
    known := known
    solves := hσ
    settled := hσ.unbound_of_mem_vars hacyclic
    regular := hregular
    closed := hchild
    typed := fun hname => htyped _ hname
    knows := fun hname hother => hknows _ hname _ hother }, rfl⟩

/-! ## Steps -/

section Steps

variable (reading : Reading env store)

def withDomains (domains : Table (List Ty)) : Reading env { store with domains } where
  meaning := reading.meaning
  known := reading.known
  solves := ⟨reading.solves.bound, reading.solves.unbound⟩
  settled := reading.settled
  regular := reading.regular
  closed := reading.closed
  typed := reading.typed
  knows := reading.knows

def learn {name : String} (hunbound : store.get? name = none) : Reading env store where
  meaning := reading.meaning
  known other := reading.known other ∨ other = name
  solves := reading.solves
  settled := reading.settled
  regular := by
    rintro other binding (hother | rfl) hbinding
    · exact reading.regular hother hbinding
    · simp [hunbound] at hbinding
  closed := by
    rintro other binding (hother | rfl) hbinding inner hinner
    · exact .inl (reading.closed hother hbinding inner hinner)
    · simp [hunbound] at hbinding
  typed := by
    rintro other (hother | rfl)
    · exact reading.typed hother
    · exact ⟨.plain other, rfl, (reading.solves.unbound _ hunbound).symm⟩
  knows := by
    rintro other inner (hother | rfl) hinner
    · exact .inl (reading.knows hother hinner)
    · rw [reading.solves.unbound _ hunbound, vars_var, mem_singleton] at hinner
      exact .inr hinner

theorem learn_later (hunbound : store.get? name = none) : reading.Later (reading.learn hunbound) :=
  ⟨fun _ => .inl, reading.absorbs_self⟩

theorem regular_bind (htype : reading.Covers type) {other : String}
    {binding : Binding} (hother : reading.known other)
    (h : (store.bind name type free).get? other = some binding) :
    binding.type.isRegular env = true := by
  rw [get?_bind] at h
  split at h
  · cases h
    exact htype.regular
  · exact reading.regular hother h

theorem closed_bind (htype : reading.Covers type) {other : String}
    {binding : Binding} (hother : reading.known other)
    (h : (store.bind name type free).get? other = some binding) :
    ∀ inner ∈ binding.type.term.vars, reading.known inner := by
  rw [get?_bind] at h
  split at h
  · cases h
    exact htype.known
  · exact reading.closed hother h

/-- A bound variable may be bound anew to a type that means the same. -/
def rebind {name : String} {binding : Binding} (hbound : store.get? name = some binding) {type : Ty}
    (htype : reading.Covers type)
    (hmeaning : type.term.subst reading.meaning = reading.meaning name)
    (free : Bool) : Reading env (store.bind name type free) where
  meaning := reading.meaning
  known := reading.known
  solves := by
    refine ⟨fun other found hfound => ?_, fun other hother => ?_⟩
    · rw [get?_bind] at hfound
      split at hfound
      · rename_i heq
        cases hfound
        rw [← heq, hmeaning]
      · exact reading.solves.bound other found hfound
    · rw [get?_bind] at hother
      split at hother
      · cases hother
      · exact reading.solves.unbound other hother
  settled := by
    intro other inner hinner
    have hunbound := reading.settled hinner
    rw [get?_bind, if_neg]
    · exact hunbound
    · rintro rfl
      simp [hbound] at hunbound
  regular := reading.regular_bind htype
  closed := reading.closed_bind htype
  typed := reading.typed
  knows := reading.knows

section Bind

variable (hunbound : store.get? name = none) {type : Ty}
  (htype : reading.Covers type)
  (hoccurs : name ∉ (type.term.subst reading.meaning).vars) (free : Bool)

/-- An unbound variable may be bound to a type in which it does not occur. -/
def bind : Reading env (store.bind name type free) where
  meaning := reading.meaning.extend name (type.term.subst reading.meaning)
  known := reading.known
  solves := reading.solves.bind hunbound hoccurs free
  settled := by
    intro other inner hinner
    obtain ⟨middle, hmiddle, hinner⟩ := (mem_vars_subst _ _ _).mp hinner
    have hsettled : name ≠ inner ∧ store.get? inner = none := by
      rw [Subst.single] at hinner
      split at hinner
      · refine ⟨fun heq => hoccurs (heq ▸ hinner), ?_⟩
        obtain ⟨_, _, hinner⟩ := (mem_vars_subst _ _ _).mp hinner
        exact reading.settled hinner
      · rename_i hne
        obtain rfl := mem_singleton.mp hinner
        exact ⟨Ne.symm hne, reading.settled hmiddle⟩
    rw [get?_bind, if_neg hsettled.1]
    exact hsettled.2
  regular := reading.regular_bind htype
  closed := reading.closed_bind htype
  typed := by
    intro other hother
    obtain ⟨old, hold, holdTerm⟩ := reading.typed hother
    obtain ⟨new, hnew, hnewTerm⟩ := htype.typed_subst
    refine ⟨old.replace fun inner => if inner = name then new else .plain inner,
      isIn_mapVariables hold fun inner _ _ _ _ => ?_, ?_⟩
    · dsimp only
      split
      · exact hnew
      · rfl
    · rw [term_replace, holdTerm, ← hnewTerm, Subst.extend]
      apply subst_congr
      intro inner _
      rw [Subst.single]
      split
      · rfl
      · rfl
  knows := by
    intro other inner hother hinner
    obtain ⟨middle, hmiddle, hinner⟩ := (mem_vars_subst _ _ _).mp hinner
    rw [Subst.single] at hinner
    split at hinner
    · exact htype.known_subst hinner
    · obtain rfl := mem_singleton.mp hinner
      exact reading.knows hother hmiddle

theorem bind_later : reading.Later (reading.bind hunbound htype hoccurs free) := by
  refine ⟨fun _ hother => hother, ?_⟩
  exact (Subst.MostGeneral.extend reading.absorbs_self
    (reading.solves.unbound name hunbound) type.term).absorbs
      (reading.bind hunbound htype hoccurs free).absorbs_self

theorem meaning_bind : (reading.bind hunbound htype hoccurs free).meaning name = type.term.subst
        (reading.bind hunbound htype hoccurs free).meaning :=
  (Subst.MostGeneral.extend reading.absorbs_self
    (reading.solves.unbound name hunbound) type.term).meets
      (reading.bind hunbound htype hoccurs free).absorbs_self

end Bind

end Steps

/-! ## Instantiation -/

theorem isInstance_of_instantiateTo (reading : Reading env store) {depth : Nat} {seen : List String}
    (htype : reading.Covers type) (h : instantiateTo depth env seen store type = .ok instantiated) :
    Ty.IsInstance (.regular env) reading.meaning type instantiated := by
  have hunfolded : ∀ {type : Ty}, type.isRegular env = true → type.isUnfolded env = true :=
    fun htype => (madeOf_of_isIn htype).isUnfolded fun hhead => hhead
  have hknown : ∀ {name}, store.Leads type name → reading.known name := by
    rintro name ⟨first, hfirst, hpath⟩
    induction hpath with
    | refl => exact htype.known _ hfirst
    | tail _ hstep ih =>
      obtain ⟨binding, hbinding, hmem⟩ := hstep
      exact reading.closed ih hbinding _ hmem
  have hresolves : store.Resolves env type instantiated :=
    .of_instantiateTo ⟨hunfolded htype.regular, fun hleads hbinding =>
      hunfolded (reading.regular (hknown hleads) hbinding)⟩ h
  exact hresolves.isInstance (fun hname hbinding =>
    ⟨reading.regular hname hbinding, reading.closed hname hbinding⟩)
    (fun _ => rfl) reading.solves htype.regular htype.known

theorem instantiate_plain (reading : Reading env store) (hname : reading.known name)
    (h : (plain name).instantiate env store = .ok type) :
    type.isRegular env = true ∧ type.term = reading.meaning name := by
  have hinstance := reading.isInstance_of_instantiateTo (covers_var hname [] false) h
  exact ⟨hinstance.isIn, hinstance.term⟩

end Reading

end Sml
