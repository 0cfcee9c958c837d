import Sml.Proofs.Environments
import Sml.Proofs.Instances

/-!
# What merging does to a store

Merging changes a store in three ways only.  Of two unbound variables the
smaller takes the place of the other, a variable gives way to an equality
variable, and a variable is bound to a type that is none.  What each of these
steps preserves all merging preserves.
-/

namespace Sml

open List Store Table Ty

namespace Store

variable {env : TypeEnv} {store : Store}

theorem bindings_join (store : Store) (survivor victim : String) (domain : List Ty) (free : Bool) :
    (store.join survivor victim domain free).bindings =
      (store.bind victim (.var survivor domain free) free).bindings := by
  unfold join
  split <;> rfl

theorem get?_join (store : Store) (survivor victim : String)
    (domain : List Ty) (free : Bool) (other : String) :
    (store.join survivor victim domain free).get? other =
      if victim = other then some ⟨.var survivor domain free, free⟩
      else store.get? other := by
  rw [get?, bindings_join]
  exact get?_bind _ _ _ _ _

theorem bind_self (hordered : Ordered store.bindings) {name : String} {binding : Binding}
    (h : store.get? name = some binding) : store.bind name binding.type binding.free = store := by
  have hbindings : Table.insert store.bindings name binding =
      store.bindings := by
    refine eq_of_get? (ordered_insert hordered _ _) hordered ?_
    intro other
    rw [get?_insert]
    split
    · rename_i heq
      exact heq ▸ h.symm
    · rfl
  rw [bind, hbindings]

theorem Acyclic.congr (h : store.Acyclic) {other : Store}
    (hbindings : other.bindings = store.bindings) : other.Acyclic := by
  have hdepends : other.Depends = store.Depends := by
    unfold Depends get?
    rw [hbindings]
  rwa [Acyclic, hdepends]

theorem Acyclic.bind (h : store.Acyclic) {name : String} {type result : Ty}
    (hunbound : store.get? name = none) (hresolves : store.Resolves env type result)
    (hleads : ¬ store.Leads type name) (free : Bool) : (store.bind name type free).Acyclic := by
  obtain ⟨σ, hσ⟩ := h.exists_solves
  refine hσ.acyclic_bind h hunbound ?_ free
  rw [← hresolves.term_eq hσ]
  exact fun hname => hleads ((hresolves.mem_vars_iff name).mp hname).1

theorem eq_of_path {first name : String} (hfirst : store.get? first = none)
    (h : Relation.ReflTransGen store.Depends first name) : name = first := by
  rcases h.cases_head with rfl | ⟨_, ⟨_, hbinding, _⟩, _⟩
  · rfl
  · simp [hfirst] at hbinding

end Store

variable {domain : List Ty}

namespace Ty

theorem MadeOf.builtFrom {anys : Prop} {heads : TyCon → Nat → Prop}
    {occurs : String → List Ty → Prop} {type : Ty}
    (h : MadeOf anys heads occurs type) : type.BuiltFrom heads := by
  induction h with
  | any => exact builtFrom_any
  | var free => exact builtFrom_var _ _ free
  | record _ ih => exact builtFrom_record.mpr ih
  | arrow _ _ ihParameter ihResult => exact builtFrom_arrow.mpr ⟨ihParameter, ihResult⟩
  | con hhead _ ih => exact builtFrom_con.mpr ⟨hhead, ih⟩
  | tuple _ ih => exact builtFrom_tuple.mpr ih

theorem exists_var_of_mark {binder : Binder} {type : Ty} {name : String} {free : Bool}
    (h : binder.mark type = var name domain free) : ∃ free, type = var name domain free := by
  unfold Binder.mark at h
  split at h
  · cases type with
    | var => cases h; exact ⟨_, rfl⟩
    | any | bind | record | arrow | con | tuple => cases h
  · exact ⟨free, h⟩

theorem mergeDomain_singleton_iff {type : Ty} :
    (domain.isEmpty = true ∨ (mergeDomain domain [type]).isEmpty = false) ↔
      domain = [] ∨ ∃ candidate ∈ domain, type.same candidate = true := by
  cases domain with
  | nil => simp
  | cons first rest =>
    rw [mergeDomain, if_neg (by simp), if_neg (by simp), isEmpty_eq_false_iff_exists_mem]
    simp only [isEmpty_cons, Bool.false_eq_true, reduceCtorEq, false_or,
      mem_filter, any_cons, any_nil, Bool.or_false]

end Ty

/-- What merged types are made of, the domains that a variable may have in a
store, and a property of stores. -/
structure Vocabulary where
  anys : Prop
  heads : TyCon → Nat → Prop
  names : String → Prop
  occurs : Store → String → List Ty → Prop
  good : Store → Prop

variable {names : List String}
variable {P : Ty → Prop}

namespace Vocabulary

variable (v : Vocabulary) (env : TypeEnv) (store : Store)

def InUse (name : String) : Prop := v.names name ∨ ∃ original, v.names original ∧
    isEqualityName original = false ∧ store.isBound original = true ∧
      name = equalityName original

def Used (name : String) (domain : List Ty) : Prop :=
  v.InUse store name ∧ v.occurs store name domain

def Made (type : Ty) : Prop := type.MadeOf v.anys v.heads (v.Used store)

def Formed (type : Ty) : Prop := type.MadeOf v.anys
    (fun head count => v.heads head count ∧ env.takes head count = true)
    (v.Used store)

structure Open (name : String) (domain : List Ty) : Prop where
  unbound : store.get? name = none
  used : ∃ original, v.Used store name original ∧ domain = store.narrow name original

/-- The variable is bound to the type, which gives the next store. -/
inductive Step : String → Ty → Store → Prop
  | join {survivor victim : String} {kept lost domain : List Ty}
      (free : Bool) :
      v.Open store survivor kept → v.Open store victim lost →
      survivor < victim →
      (domain = Ty.mergeDomain kept lost ∨ domain = Ty.mergeDomain lost kept) →
      (domain = [] → kept = [] ∧ lost = []) →
      Step victim (.var survivor domain free) (store.join survivor victim domain free)
  | convert {name : String} {domain : List Ty} (free : Bool) :
      v.Open store name domain → isEqualityName name = false →
      Step name (.var (equalityName name) domain free)
        (store.bind name (.var (equalityName name) domain free) free)
  | bind {name : String} {domain : List Ty} {type : Ty} (free : Bool) :
      v.Open store name domain → v.Formed env store type →
      (∀ other domain free, type ≠ .var other domain free) →
      ¬ store.Leads type name →
      (isEqualityName name = true → ∃ depth, admitsWithin
        (fun env => instantiateTo depth env [] {}) unfoldingRoom env
        type = some true) →
      (domain = [] ∨ ∃ candidate ∈ domain, type.same candidate = true) →
      Step name type (store.bind name type free)

structure Sound : Prop where
  ordered : Ordered store.bindings
  acyclic : store.Acyclic
  inUse : ∀ {name binding}, store.get? name = some binding → v.InUse store name
  formed : ∀ {name binding}, store.get? name = some binding → v.Formed env store binding.type
  good : v.good store

/-- The next store is sound, and what occurs may still occur. -/
structure Reaches (next : Store) : Prop where
  sound : v.Sound env next
  used : ∀ {name domain}, v.Used store name domain → v.Used next name domain

/-- The equality variable that one may give way to is not among the names. -/
structure Apart : Prop where
  equality : ∀ {name}, v.names name → isEqualityName (equalityName name) = true
  apart : ∀ {name}, v.names name → ¬ v.names (equalityName name)

structure Lawful : Prop extends v.Apart where
  hidden : ∀ {head count} (hidden : Bool), v.heads head count → v.heads { head with hidden } count
  unfolded : ∀ {head count}, v.heads head count →
    ((env.definition? head).all fun info => !info.isAbbreviation) = true
  narrowed : ∀ {store name domain}, v.Sound env store →
    v.Used store name domain → store.get? name = none →
      v.occurs store name (store.narrow name domain)
  step : ∀ {store name type next}, v.Sound env store →
    v.Step env store name type next → v.good next ∧ (∀ {other domain}, v.Used store other domain →
        v.occurs next other domain) ∧
      ∀ {other domain free}, type = .var other domain free → v.occurs next other domain

variable {v env store} {name : String} {type : Ty} {middle next : Store}

/-! ## Names -/

theorem Formed.made (h : v.Formed env store type) : v.Made store type :=
  h.mono (fun hhead => hhead.1) fun hused => hused

theorem InUse.mono (h : v.InUse store name)
    (hbound : ∀ name, store.isBound name = true → next.isBound name = true) :
    v.InUse next name := by
  obtain hname | ⟨original, hnames, hequality, horiginal, rfl⟩ := h
  · exact .inl hname
  · exact .inr ⟨original, hnames, hequality, hbound _ horiginal, rfl⟩

namespace Apart

variable (hapart : v.Apart)
include hapart

theorem names_of_inUse (h : v.InUse store name)
    (hequality : isEqualityName name = false) : v.names name := by
  obtain hname | ⟨original, hnames, _, _, rfl⟩ := h
  · exact hname
  · rw [hapart.equality hnames] at hequality
    cases hequality

theorem not_inUse_equalityName (h : v.InUse store name)
    (hunbound : store.get? name = none) (hequality : isEqualityName name = false) :
    ¬ v.InUse store (equalityName name) := by
  rintro (hname | ⟨original, _, _, hbound, heq⟩)
  · exact hapart.apart (hapart.names_of_inUse h hequality) hname
  · rw [← equalityName_injective heq, isBound, hunbound] at hbound
    cases hbound

end Apart

theorem Sound.get?_eq_none (h : v.Sound env store)
    (hname : ¬ v.InUse store name) : store.get? name = none := by
  cases hbinding : store.get? name with
  | none => rfl
  | some binding => exact (hname (h.inUse hbinding)).elim

theorem Open.inUse (h : v.Open store name domain) : v.InUse store name := by
  obtain ⟨_, hused, _⟩ := h.used
  exact hused.1

/-! ## One step -/

namespace Step

variable (h : v.Step env store name type next)
include h

theorem opens : ∃ domain, v.Open store name domain := by
  cases h with
  | join free _ hvictim => exact ⟨_, hvictim⟩
  | convert free hname => exact ⟨_, hname⟩
  | bind free hname => exact ⟨_, hname⟩

theorem bindings : ∃ free, next.bindings = (store.bind name type free).bindings := by
  cases h with
  | join free => exact ⟨free, store.bindings_join _ _ _ free⟩
  | convert free => exact ⟨free, rfl⟩
  | bind free => exact ⟨free, rfl⟩

theorem get?_eq : ∃ free, ∀ other, next.get? other =
      if name = other then some ⟨type, free⟩ else store.get? other := by
  obtain ⟨free, hbindings⟩ := h.bindings
  refine ⟨free, fun other => ?_⟩
  rw [← get?_bind, Store.get?, hbindings]
  rfl

theorem acyclic (hlaw : v.Lawful env) (hsound : v.Sound env store) : next.Acyclic := by
  obtain ⟨domain, hopen⟩ := h.opens
  obtain ⟨free, hbindings⟩ := h.bindings
  have hvar : ∀ {other : String} {domain : List Ty} {free : Bool},
      type = .var other domain free → store.get? other = none →
      other ≠ name → next.Acyclic := by
    rintro other domain free rfl hunbound hne
    have hresolves : store.Resolves env (.var other domain free) _ := .unbound domain free hunbound
    refine (hsound.acyclic.bind hopen.unbound hresolves ?_ _).congr hbindings
    exact fun hleads => hne (eq_of_path hunbound (leads_var_iff.mp hleads)).symm
  cases h with
  | join free hsurvivor _ hlt =>
    refine hvar rfl hsurvivor.unbound ?_
    rintro rfl
    exact String.lt_irrefl _ hlt
  | convert free hname hequality =>
    refine hvar rfl (hsound.get?_eq_none
      (hlaw.not_inUse_equalityName hname.inUse hname.unbound hequality)) ?_
    intro heq
    have hnew := hlaw.equality (hlaw.names_of_inUse hname.inUse hequality)
    rw [heq, hequality] at hnew
    cases hnew
  | bind free hname htype _ hleads =>
    obtain ⟨result, hresult⟩ := hsound.acyclic.exists_resolves
      (fun hhead => hhead.2) hsound.formed htype
    exact (hsound.acyclic.bind hopen.unbound hresult hleads _).congr hbindings

theorem reaches (hlaw : v.Lawful env) (hsound : v.Sound env store) : v.Reaches env store next := by
  obtain ⟨hgood, hkept, hadded⟩ := hlaw.step hsound h
  obtain ⟨domain, hopen⟩ := h.opens
  obtain ⟨_, hbindings⟩ := h.bindings
  obtain ⟨free, hget⟩ := h.get?_eq
  have hinUse : ∀ {other}, v.InUse store other → v.InUse next other := by
    intro other hother
    refine hother.mono fun bound hbound => ?_
    rw [isBound, hget]
    split
    · rfl
    · exact hbound
  have hused : ∀ {other domain}, v.Used store other domain → v.Used next other domain :=
    fun hother => ⟨hinUse hother.1, hkept hother⟩
  have hformed : v.Formed env next type := by
    cases h with
    | join free hsurvivor => exact .var free ⟨hinUse hsurvivor.inUse, hadded rfl⟩
    | convert free hname hequality =>
      refine .var free ⟨.inr ⟨name, hlaw.names_of_inUse hname.inUse hequality,
        hequality, ?_, rfl⟩, hadded rfl⟩
      rw [isBound, hget, if_pos rfl]
      rfl
    | bind free _ htype => exact htype.mono (fun hhead => hhead) hused
  refine ⟨⟨?_, h.acyclic hlaw hsound, ?_, ?_, hgood⟩, hused⟩
  · rw [hbindings]
    exact ordered_insert hsound.ordered _ _
  · intro other binding hbinding
    rw [hget] at hbinding
    split at hbinding
    · rename_i heq
      exact hinUse (heq ▸ hopen.inUse)
    · exact hinUse (hsound.inUse hbinding)
  · intro other binding hbinding
    rw [hget] at hbinding
    split at hbinding
    · cases hbinding
      exact hformed
    · exact (hsound.formed hbinding).mono (fun hhead => hhead) hused

end Step

theorem Sound.reaches_self (h : v.Sound env store) : v.Reaches env store store :=
  ⟨h, fun hused => hused⟩

theorem Reaches.trans (h : v.Reaches env store middle)
    (hnext : v.Reaches env middle next) : v.Reaches env store next :=
  ⟨hnext.sound, fun hused => hnext.used (h.used hused)⟩

theorem Reaches.made (h : v.Reaches env store next) (htype : v.Made store type) :
    v.Made next type :=
  htype.mono (fun hhead => hhead) h.used

/-! ## Instantiation -/

section Lawful

variable (hlaw : v.Lawful env) (hsound : v.Sound env store)
include hlaw hsound

theorem Open.used_self (h : v.Open store name domain) : v.Used store name domain := by
  obtain ⟨original, hused, rfl⟩ := h.used
  exact ⟨hused.1, hlaw.narrowed hsound hused h.unbound⟩

variable (v env store) in
def Shown (type : Ty) : Prop := type.MadeOf v.anys
    (fun head count => v.heads head count ∧ env.takes head count = true)
    (v.Open store)

theorem Shown.formed (h : v.Shown env store type) : v.Formed env store type :=
  h.mono (fun hhead => hhead) fun hopen => hopen.used_self hlaw hsound

theorem shown_instantiateTo (htype : v.Made store type) (depth : Nat) (seen : List String) :
    Yields (v.Shown env store) (instantiateTo depth env seen store type) := by
  intro result hresult
  have hresolves : store.Resolves env type result := by
    refine .of_instantiateTo ⟨htype.isUnfolded hlaw.unfolded, ?_⟩ hresult
    intro name binding _ hbinding
    exact (hsound.formed hbinding).made.isUnfolded hlaw.unfolded
  refine hresolves.madeOf htype (fun hbinding => (hsound.formed hbinding).made)
    hlaw.hidden fun hunbound hused => ⟨hunbound, _, hused, rfl⟩

/-! ## Equality variables -/

variable (v) in
/-- In the next store some more variables have given way to equality
variables. -/
structure Converts (store next : Store) : Prop where
  domains : next.domains = store.domains
  bindings : ∀ name, next.get? name = store.get? name ∨
    v.InUse store name ∧ store.get? name = none ∧ isEqualityName name = false ∧ ∃ domain free,
        next.get? name = some ⟨.var (equalityName name) domain free, free⟩

variable (v) in
/-- A variable that has not given way, or has given way to an equality
variable. -/
def Ready (store : Store) (name : String) (domain : List Ty) : Prop :=
  v.Used store name domain ∧ (isEqualityName name = true ∨
    v.Open store name domain ∨ ∃ binding domain free, store.get? name = some binding ∧
        binding.type = .var (equalityName name) domain free)

variable (v env) in
structure Converted (store : Store) (names : List String) (type : Ty) (next : Store) : Prop where
  reaches : v.Reaches env store next
  converts : v.Converts store next
  formed : v.Formed env next type
  vars : ∀ name ∈ type.term.vars, name ∈ names ∨ ∃ original ∈ names,
    isEqualityName original = false ∧ name = equalityName original

namespace Converts

variable {middle next : Store}

omit hlaw hsound in
theorem refl (store : Store) : v.Converts store store := ⟨rfl, fun _ => .inl rfl⟩

omit hsound in
theorem trans (h : v.Converts store middle) (hnext : v.Converts middle next) :
    v.Converts store next := by
  refine ⟨hnext.domains.trans h.domains, fun name => ?_⟩
  rcases hnext.bindings name with heq | ⟨hinUse, hunbound, hequality, hnew⟩
  · rw [heq]
    exact h.bindings name
  · have hname := hlaw.names_of_inUse hinUse hequality
    rcases h.bindings name with heq | ⟨_, _, _, _, _, hbound⟩
    · exact .inr ⟨.inl hname, heq ▸ hunbound, hequality, hnew⟩
    · rw [hunbound] at hbound
      cases hbound

omit hlaw hsound in
theorem narrow_eq (h : v.Converts store next) (name : String)
    (domain : List Ty) : next.narrow name domain = store.narrow name domain := by
  rw [narrow, domain?, h.domains]
  rfl

end Converts

omit hlaw hsound in
theorem Ready.mono (h : v.Ready store name domain)
    (hreaches : v.Reaches env store next) (hconverts : v.Converts store next) :
    v.Ready next name domain := by
  refine ⟨hreaches.used h.1, ?_⟩
  rcases h.2 with hequality | hopen | ⟨binding, other, free, hbinding, htype⟩
  · exact .inl hequality
  · obtain ⟨original, hused, hdomain⟩ := hopen.used
    rcases hconverts.bindings name with heq | ⟨_, _, _, other, free, hnew⟩
    · exact .inr (.inl ⟨heq.trans hopen.unbound, original, hreaches.used hused,
        by rw [hdomain, hconverts.narrow_eq]⟩)
    · exact .inr (.inr ⟨_, other, free, hnew, rfl⟩)
  · rcases hconverts.bindings name with heq | ⟨_, hunbound, _⟩
    · exact .inr (.inr ⟨binding, other, free, heq.trans hbinding, htype⟩)
    · rw [hbinding] at hunbound
      cases hunbound

omit hsound in
theorem Converted.later (h : v.Converted env store names type middle)
    (hreaches : v.Reaches env middle next)
    (hconverts : v.Converts middle next) : v.Converted env store names type next where
  reaches := h.reaches.trans hreaches
  converts := h.converts.trans hlaw hconverts
  formed := h.formed.mono (fun hhead => hhead) hreaches.used
  vars := h.vars

theorem converted_var (h : v.Ready store name domain) (depth : Nat) (free : Bool) :
    Yields (fun result => v.Converted env store [name] result.1 result.2)
      (makeEqTo depth env store (.var name domain free)) := by
  cases depth with
  | zero => exact .error _
  | succ depth =>
    rw [makeEqTo]
    cases hequality : isEqualityName name with
    | true => exact .ok ⟨hsound.reaches_self, .refl store, .var free h.1, by simp⟩
    | false =>
      rw [if_neg Bool.false_ne_true]
      rcases h.2 with hother | hopen | ⟨binding, other, marked, hbinding, htype⟩
      · rw [hequality] at hother
        cases hother
      · have hstep : v.Step env store name _ _ := .convert free hopen hequality
        have hreaches := hstep.reaches hlaw hsound
        rw [hopen.unbound]
        refine .ok ⟨hreaches, ⟨rfl, fun other => ?_⟩, ?_, ?_⟩
        · rw [get?_bind]
          split
          · rename_i heq
            subst heq
            exact .inr ⟨hopen.inUse, hopen.unbound, hequality, _, _, rfl⟩
          · exact .inl rfl
        · have hbound := get?_bind store name (.var (equalityName name) domain free) free name
          rw [if_pos rfl] at hbound
          exact hreaches.sound.formed hbound
        · simp [hequality]
      · have hname := hlaw.names_of_inUse h.1.1 hequality
        have hformed := hsound.formed hbinding
        rw [hbinding]
        simp only
        rw [htype] at hformed ⊢
        cases depth with
        | zero => exact .error _
        | succ depth =>
          rw [makeEqTo, if_pos (hlaw.equality hname)]
          refine .ok ?_
          rw [← htype, bind_self hsound.ordered hbinding, htype]
          exact ⟨hsound.reaches_self, .refl store, hformed, by simp [hequality]⟩

variable (v env) in
/-- A type that can be turned into one of equality variables. -/
def Convertible (store : Store) (type : Ty) : Prop := type.MadeOf v.anys
    (fun head count => v.heads head count ∧ env.takes head count = true)
    (v.Ready store)

omit hlaw hsound in
theorem Convertible.later (h : v.Convertible env store type) (hreaches : v.Reaches env store next)
    (hconverts : v.Converts store next) : v.Convertible env next type :=
  h.mono (fun hhead => hhead) fun hready => hready.mono hreaches hconverts

omit hlaw in
theorem Convertible.converted_self
    (h : v.Convertible env store type) : v.Converted env store type.term.vars type store where
  reaches := hsound.reaches_self
  converts := .refl store
  formed := h.mono (fun hhead => hhead) fun hready => hready.1
  vars := fun _ hname => .inl hname

variable (v env) in
def ConvertsSoundly (convert : Store → Ty → Except TypeFault (Ty × Store)) :
    Prop :=
  ∀ {store type}, v.Sound env store → v.Convertible env store type → Yields (fun result =>
        v.Converted env store type.term.vars result.1 result.2)
      (convert store type)

theorem converted_threadStore {convert : Store → Ty → Except TypeFault (Ty × Store)}
    (hconvert : v.ConvertsSoundly env convert)
    {types : List Ty} (htypes : ∀ type ∈ types, v.Convertible env store type ∧
      ∀ name ∈ type.term.vars, name ∈ names) : Yields (fun result => v.Reaches env store result.2 ∧
        v.Converts store result.2 ∧ result.1.length = types.length ∧
        ∀ type ∈ result.1, v.Converted env store names type result.2)
      (threadStore convert store types) := by
  induction types generalizing store with
  | nil => exact .ok ⟨hsound.reaches_self, .refl store, rfl, by simp⟩
  | cons type types ih =>
    obtain ⟨⟨htype, hnames⟩, htypes⟩ := forall_mem_cons.mp htypes
    refine (hconvert hsound htype).bind fun first hfirst => ?_
    refine (ih hfirst.reaches.sound fun other hother =>
      ⟨(htypes other hother).1.later hfirst.reaches hfirst.converts,
        (htypes other hother).2⟩).bind fun others hothers => ?_
    obtain ⟨hreaches, hconverts, hlength, hall⟩ := hothers
    refine .ok ⟨hfirst.reaches.trans hreaches,
      hfirst.converts.trans hlaw hconverts, congrArg (· + 1) hlength,
      forall_mem_cons.mpr ⟨?_, fun other hother => ?_⟩⟩
    · refine { hfirst.later hlaw hreaches hconverts with vars := ?_ }
      intro name hname
      refine (hfirst.vars name hname).imp (hnames name) ?_
      rintro ⟨original, horiginal, heq⟩
      exact ⟨original, hnames original horiginal, heq⟩
    · have hother := hall other hother
      exact ⟨hfirst.reaches.trans hother.reaches,
        hfirst.converts.trans hlaw hother.converts, hother.formed,
        hother.vars⟩

omit hsound in
theorem convertsSoundly_makeEqTo (depth : Nat) : v.ConvertsSoundly env (makeEqTo depth env) := by
  induction depth with
  | zero => exact fun _ _ => .error _
  | succ depth ih =>
    intro store type hsound htype
    have hself := htype.converted_self hsound
    cases htype with
    | any | arrow => exact .ok hself
    | var free hready => exact converted_var hlaw hsound hready _ free
    | @record fields hfields =>
      refine (converted_threadStore hlaw hsound ih (forall_mem_map.mpr fun field hfield =>
          ⟨hfields field hfield, fun name hname =>
            (mem_vars_record _ _ true).mpr ⟨field, hfield, hname⟩⟩)).bind
        fun result hresult => ?_
      obtain ⟨hreaches, hconverts, _, hall⟩ := hresult
      have hall : ∀ field ∈ (fields.map (·.1)).zip result.1, _ :=
        fun field hfield => hall field.2 (of_mem_zip hfield).2
      refine .ok ⟨hreaches, hconverts, .record fun field hfield => (hall field hfield).formed, ?_⟩
      intro name hname
      obtain ⟨field, hfield, hname⟩ := (mem_vars_record _ _ _).mp hname
      exact (hall field hfield).vars name hname
    | con hhead harguments =>
      rintro ⟨result, next⟩ hresult
      obtain ⟨_, rfl, rfl⟩ | ⟨results, rfl, hthread⟩ := makeEqTo_con (hlaw.unfolded hhead.1) hresult
      · exact hself
      · obtain ⟨hreaches, hconverts, hlength, hall⟩ := converted_threadStore hlaw hsound ih
            (fun argument hargument => ⟨harguments argument hargument,
              fun name hname => (mem_vars_con _ _ _).mpr ⟨argument, hargument, hname⟩⟩) _ hthread
        refine ⟨hreaches, hconverts, .con (hlength ▸ hhead)
          fun argument hargument => (hall argument hargument).formed, ?_⟩
        intro name hname
        obtain ⟨argument, hargument, hname⟩ := (mem_vars_con _ _ _).mp hname
        exact (hall argument hargument).vars name hname
    | tuple helements =>
      rw [makeEqTo, ← term_simplify]
      exact ih hsound (Ty.MadeOf.tuple helements).simplify

omit hsound in
theorem makeEqTo_ne_var {depth : Nat} {type result : Ty}
    (htype : v.Convertible env store type) (hvar : ∀ name domain free, type ≠ .var name domain free)
    (h : makeEqTo depth env store type = .ok (result, next)) :
    ∀ name domain free, result ≠ .var name domain free := by
  induction depth generalizing type with
  | zero => cases h
  | succ depth ih =>
    rintro name domain free rfl
    cases htype with
    | any | arrow => cases h
    | var => exact hvar _ _ _ rfl
    | record =>
      obtain ⟨_, _, hlast⟩ := bind_eq_ok h
      cases hlast
    | con hhead =>
      obtain ⟨_, heq, _⟩ | ⟨_, heq, _⟩ := makeEqTo_con (hlaw.unfolded hhead.1) h
      · cases heq
      · cases heq
    | tuple helements =>
      refine ih (Ty.MadeOf.tuple helements).simplify ?_ h name domain free rfl
      intro name domain free
      rw [simplify_tuple]
      rintro ⟨⟩

/-! ## Binding -/

/-- The variables of a type that was converted lead to no other variable that
was in use. -/
theorem Converted.not_leads (hname : v.InUse store name)
    (hnames : ∀ other ∈ names, other ≠ name ∧ ∃ domain, v.Open store other domain)
    (h : v.Converted env store names type next) : ¬ next.Leads type name := by
  -- The equality variables are new, and unbound.
  have hfresh : ∀ original ∈ names, isEqualityName original = false →
      ¬ Relation.ReflTransGen next.Depends (equalityName original) name := by
    intro original horiginal hequality hpath
    obtain ⟨_, domain, hopen⟩ := hnames original horiginal
    have hnew := hlaw.not_inUse_equalityName hopen.inUse hopen.unbound hequality
    have hunbound : next.get? (equalityName original) = none := by
      rcases h.converts.bindings (equalityName original) with
        heq | ⟨hinUse, _⟩
      · exact heq.trans (hsound.get?_eq_none hnew)
      · exact (hnew hinUse).elim
    exact hnew (eq_of_path hunbound hpath ▸ hname)
  rintro ⟨first, hfirst, hpath⟩
  rcases h.vars first hfirst with hfirst | ⟨original, horiginal, hequality, rfl⟩
  · obtain ⟨hne, domain, hopen⟩ := hnames first hfirst
    rcases hpath.cases_head with rfl | ⟨inner, ⟨binding, hbinding, hinner⟩, hpath⟩
    · exact hne rfl
    · rcases h.converts.bindings first with
        heq | ⟨_, _, hequality, _, _, hnew⟩
      · rw [heq, hopen.unbound] at hbinding
        cases hbinding
      · rw [hnew] at hbinding
        cases hbinding
        rw [term_var, Term.vars_var, mem_singleton] at hinner
        exact hfresh first hfirst hequality (hinner ▸ hpath)
  · exact hfresh original horiginal hequality hpath

theorem reaches_bindTo {binder : Ty.Binder}
    (hopen : v.Open store binder.name binder.domain) {other : Ty} (hother : v.Shown env store other)
    (hvar : ∀ name domain free, other ≠ .var name domain free) (depth : Nat) :
    Yields (fun result => v.Reaches env store result.2) (bindTo depth env store binder other) := by
  cases depth with
  | zero => exact .error _
  | succ depth =>
    rintro ⟨merged, next⟩ h
    obtain ⟨hcontains, middle, hmiddle, hdomain, rfl⟩ := bindTo_eq_ok_iff.mp h
    have hmarked : v.Shown env store (binder.mark other) := hother.mark binder
    have hterm : (binder.mark other).term = other.term := term_mark other binder
    have hmarkedVar : ∀ name domain free, binder.mark other ≠ .var name domain free := by
      intro name domain free heq
      obtain ⟨free, rfl⟩ := exists_var_of_mark heq
      exact hvar _ _ _ rfl
    have hready : v.Convertible env store (binder.mark other) :=
      hmarked.mono (fun hhead => hhead) fun hopen =>
        ⟨hopen.used_self hlaw hsound, .inr (.inl hopen)⟩
    have hnames : ∀ name ∈ (binder.mark other).term.vars,
        name ≠ binder.name ∧ ∃ domain, v.Open store name domain := by
      intro name hname
      refine ⟨?_, hmarked.occurs_of_mem hname⟩
      rintro rfl
      rw [hterm, ← contains_variableDomains_false hother.isQuantifierFree, hcontains] at hname
      cases hname
    obtain ⟨hconverted, hunbound, hmerged, hadmits⟩ :
        v.Converted env store (binder.mark other).term.vars merged middle ∧
        middle.get? binder.name = none ∧
        (∀ name domain free, merged ≠ .var name domain free) ∧
        (isEqualityName binder.name = true → admitsWithin
          (fun env => instantiateTo depth env [] {}) unfoldingRoom env
          merged = some true) := by
      rcases hmiddle with ⟨rfl, rfl, hadmits⟩ | ⟨hequality, _, hmade, hadmits⟩
      · exact ⟨hready.converted_self hsound, hopen.unbound, hmarkedVar, hadmits⟩
      · have hconverted := convertsSoundly_makeEqTo hlaw depth hsound hready _ hmade
        refine ⟨hconverted, ?_, makeEqTo_ne_var hlaw hready hmarkedVar hmade, fun _ => hadmits⟩
        rcases hconverted.converts.bindings binder.name with
          heq | ⟨_, _, hnot, _⟩
        · exact heq.trans hopen.unbound
        · rw [hequality] at hnot
          cases hnot
    obtain ⟨original, hused, hnarrow⟩ := hopen.used
    have hstep : v.Step env middle binder.name merged
        (middle.bind binder.name merged binder.free) := by
      have hopen' : v.Open middle binder.name binder.domain := by
        refine ⟨hunbound, original, hconverted.reaches.used hused, ?_⟩
        rw [hconverted.converts.narrow_eq, hnarrow]
      exact .bind binder.free hopen' hconverted.formed hmerged
        (hconverted.not_leads hlaw hsound hopen.inUse hnames)
        (fun hequality => ⟨depth, hadmits hequality⟩)
        (mergeDomain_singleton_iff.mp hdomain)
    exact hconverted.reaches.trans (hstep.reaches hlaw hconverted.reaches.sound)

theorem reaches_mergeVariables {this that : Ty.Binder} (hthis : v.Open store this.name this.domain)
    (hthat : v.Open store that.name that.domain) :
    Yields (fun result => v.Reaches env store result.2) (mergeVariables store this that) := by
  rintro ⟨merged, next⟩ h
  obtain ⟨hdomain, ⟨_, _, rfl⟩ | ⟨survivor, victim, hboth, hlt, _, rfl⟩⟩ := mergeVariables_eq_ok h
  · exact hsound.reaches_self
  · rcases hboth with ⟨rfl, rfl⟩ | ⟨rfl, rfl⟩
    · exact (Step.join _ hthis hthat hlt (.inl rfl) hdomain).reaches hlaw hsound
    · exact (Step.join _ hthat hthis hlt (.inr rfl) fun hempty =>
        (hdomain hempty).symm).reaches hlaw hsound

end Lawful

/-! ## Merging -/

variable (v env) in
def mergeKind : MergeKind where
  store := v.Sound env
  type := v.Made
  shown := v.Shown env
  made _ _ := True
  grows := v.Reaches env

theorem Lawful.mergeKind (hlaw : v.Lawful env) : (v.mergeKind env).Lawful where
  refl hsound := hsound.reaches_self
  trans h hnext := h.trans hnext
  sound h := h.sound
  later h htype := h.made htype
  lasts _ _ := trivial
  given hsound htype := (htype.formed hlaw hsound).made
  kept _ := trivial
  body htype := nomatch htype
  simplify htype := htype.simplify
  fields htype := by
    cases htype with
    | record hfields => exact hfields
  arrow htype := by
    cases htype with
    | arrow hparameter hresult => exact ⟨hparameter, hresult⟩
  arguments htype := by
    cases htype with
    | con _ harguments => exact harguments
  makeRecord _ _ _ := trivial
  makeArrow _ _ := trivial
  makeCon _ _ _ _ := trivial
  join hsound hthis hthat := by
    cases hthis with
    | var _ hthis =>
      cases hthat with
      | var _ hthat =>
        exact fun result hresult => ⟨trivial,
          reaches_mergeVariables hlaw hsound hthis hthat result hresult⟩
  rebind _ htype hgrows := by
    rw [Ty.MadeOf.isResolved htype] at hgrows
    cases hgrows

theorem Lawful.kept (hlaw : v.Lawful env) (depth : Nat) : (v.mergeKind env).Kept env env depth := by
  induction depth with
  | zero => exact ⟨fun _ _ _ => .error _, fun _ _ _ => .error _, fun _ _ _ _ => .error _⟩
  | succ depth ih =>
    refine ⟨fun seen hsound htype =>
      .same (shown_instantiateTo hlaw hsound htype _ seen),
      ih.merges_mergeTo hlaw.mergeKind, ?_⟩
    intro store binder other hsound hopen hother hvar
    cases hopen with
    | var _ hopen =>
      exact .same fun result hresult => ⟨trivial,
        reaches_bindTo hlaw hsound hopen hother hvar _ result hresult⟩

end Vocabulary

/-- The stores that merging types of a kind reaches from the empty one. -/
inductive Store.Reached (env : TypeEnv) (P : Ty → Prop) : Store → Prop
  | empty : Reached env P {}
  | merge {store next : Store} {left right merged : Ty} :
      Reached env P store → P left → P right →
      Ty.merge env store left right = .ok (merged, next) →
      Reached env P next

def Store.merged (env : TypeEnv) (store : Store) (left right : Ty) : Store :=
  ((Ty.merge env store left right).toOption.map (·.2)).getD store

theorem Store.Reached.merged {env : TypeEnv} {store : Store} (h : store.Reached env P)
    {left right : Ty} (hleft : P left) (hright : P right) :
    (store.merged env left right).Reached env P := by
  unfold Store.merged
  cases hmerge : Ty.merge env store left right with
  | error fault => exact h
  | ok result => exact .merge h hleft hright hmerge

theorem Vocabulary.Lawful.sound {v : Vocabulary} {env : TypeEnv} (hlaw : v.Lawful env)
    (hempty : v.good {}) (hP : ∀ {type}, P type → ∀ {store}, v.Sound env store → v.Made store type)
    {store : Store} (h : store.Reached env P) : v.Sound env store := by
  induction h with
  | empty =>
    refine ⟨List.Pairwise.nil, ?_, (nomatch ·), (nomatch ·), hempty⟩
    have hranked : Ranked {} fun _ => 0 := by
      rintro _ _ ⟨_, hbinding, _⟩
      cases hbinding
    exact hranked.acyclic
  | merge _ hleft hright hmerge ih =>
    exact ((hlaw.kept _).merge ih (hP hleft ih) (hP hright ih) _ hmerge).2.grown.sound

end Sml
