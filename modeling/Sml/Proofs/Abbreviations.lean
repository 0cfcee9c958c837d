import Mathlib.Data.Finset.Card
import Sml.Elaboration.TypeExpr
import Sml.Proofs.MergeFrame

/-!
# Unfolding an abbreviation

Instantiation unfolds an abbreviation by merging variables of its own, one
for each parameter, with the arguments.  Putting the arguments for the
parameters in the body gives the same type unless an argument is a variable:
of two variables the one with the smaller name is kept, and that may be the
one that was made up.
-/

namespace Sml

open List Option Store Table Term Ty

/-! ## Names that are made up -/

variable {name : String} {depth : Nat}
variable {f : String → List Ty → Bool → Ty} {type : Ty} {store : Store} {other last : String}
  {free : Bool} {types : String → Ty}

namespace Ty

def madeUp (index : Nat) : String := "'*q" ++ toString index

theorem madeUp_injective {first second : Nat}
    (h : madeUp first = madeUp second) : first = second := by
  rw [madeUp, madeUp, String.append_right_inj] at h
  exact toString_injective h

theorem equalityName_madeUp_ne (first second : Nat) :
    equalityName (madeUp first) ≠ madeUp second := by
  intro h
  have hlist := congrArg String.toList h
  simp [equalityName, madeUp] at hlist

theorem isEqualityName_madeUp (index : Nat) : isEqualityName (madeUp index) = false := by
  simp [isEqualityName, madeUp]

def isTaken (store : Store) (index : Nat) : Bool :=
  store.isBound (madeUp index) || store.isBound (equalityName (madeUp index))

theorem exists_not_isTaken (store : Store) (index : Nat) :
    ∃ offset ≤ store.size, isTaken store (index + offset) = false := by
  by_contra hall
  push Not at hall
  let holder (offset : Nat) : String :=
    if store.isBound (madeUp (index + offset)) then madeUp (index + offset)
    else equalityName (madeUp (index + offset))
  have hmaps : Set.MapsTo holder (Finset.range (store.size + 1))
      store.boundNames := by
    intro offset hoffset
    have htaken := hall offset (Nat.lt_succ_iff.mp (by simpa using hoffset))
    simp only [ne_eq, Bool.not_eq_false, isTaken, Bool.or_eq_true] at htaken
    simp only [holder]
    split
    · rename_i hbound
      exact mem_boundNames.mpr hbound
    · rename_i hbound
      exact mem_boundNames.mpr (htaken.resolve_left hbound)
  have hinjective : Set.InjOn holder (Finset.range (store.size + 1)) := by
    intro first _ second _ heq
    simp only [holder] at heq
    have hnumber : index + first = index + second := by
      split at heq <;> split at heq
      · exact madeUp_injective heq
      · exact absurd heq.symm (equalityName_madeUp_ne _ _)
      · exact absurd heq (equalityName_madeUp_ne _ _)
      · exact madeUp_injective (equalityName_injective heq)
    omega
  have hcard := Finset.card_le_card_of_injOn holder hmaps hinjective
  have hle := store.card_boundNames_le
  rw [Finset.card_range] at hcard
  omega

theorem freeIndex_eq (store : Store) (bound index : Nat) : freeIndex store (bound + 1) index =
      if isTaken store index then freeIndex store bound (index + 1)
      else index := rfl

theorem freeIndex_spec (store : Store) (bound index : Nat)
    (h : ∃ offset < bound, isTaken store (index + offset) = false) :
    index ≤ freeIndex store bound index ∧ isTaken store (freeIndex store bound index) = false := by
  induction bound generalizing index with
  | zero => simp at h
  | succ bound ih =>
    rw [freeIndex_eq]
    split
    · rename_i htaken
      obtain ⟨offset, hoffset, hfree⟩ := h
      have hpos : offset ≠ 0 := by
        rintro rfl
        simp [htaken] at hfree
      obtain ⟨hle, hindex⟩ := ih (index + 1) ⟨offset - 1, by omega, by
        rwa [show index + 1 + (offset - 1) = index + offset by omega]⟩
      exact ⟨by omega, hindex⟩
    · rename_i htaken
      exact ⟨le_rfl, by simpa using htaken⟩

/-- Each variable of an abbreviation gets a number of its own, for a name
that the store does not bind. -/
theorem exists_expansionNames (store : Store) (index : Nat) (names : List String)
    (hnames : ∀ name ∈ names, isEqualityName name = false) :
    ∃ number : String → Nat, (∀ name ∈ names, index ≤ number name ∧
        get? (expansionNames store index names) name = some (madeUp (number name)) ∧
        store.get? (madeUp (number name)) = none) ∧
      ∀ name ∈ names, ∀ other ∈ names, number name = number other → name = other := by
  induction names generalizing index with
  | nil => exact ⟨fun _ => 0, by simp, by simp⟩
  | cons first rest ih =>
    obtain ⟨offset, hoffset, hfree⟩ := exists_not_isTaken store index
    obtain ⟨hle, hindex⟩ := freeIndex_spec store (store.size + 1) index ⟨offset, by omega, hfree⟩
    unfold expansionNames
    simp only [hnames first (by simp), Bool.false_eq_true, if_false]
    generalize freeIndex store (store.size + 1) index = found at hle hindex
    obtain ⟨number, hnumber, hinjective⟩ := ih (found + 1)
      fun name hname => hnames name (by simp [hname])
    have hfound : store.get? (madeUp found) = none := by
      simpa [isTaken, isBound] using (Bool.or_eq_false_iff.mp hindex).1
    refine ⟨fun name => if name = first then found else number name,
      fun name hname => ?_, fun name hname other hother heq => ?_⟩
    · dsimp only
      rw [get?_insert]
      split
      · rename_i heq
        subst heq
        exact ⟨hle, if_pos rfl, hfound⟩
      · rename_i hne
        obtain ⟨hlarge, hget, hunbound⟩ := hnumber name ((mem_cons.mp hname).resolve_left hne)
        exact ⟨by omega, by rw [if_neg (Ne.symm hne), hget], hunbound⟩
    · dsimp only at heq
      -- Later numbers are larger than the one given first.
      have hlater : ∀ name, name ∈ first :: rest → name ≠ first →
          name ∈ rest ∧ found < number name := by
        intro name hname hne
        have hrest := (mem_cons.mp hname).resolve_left hne
        exact ⟨hrest, (hnumber name hrest).1⟩
      split at heq <;> split at heq
      · simp_all
      · have := hlater other hother ‹_›
        omega
      · have := hlater name hname ‹_›
        omega
      · exact hinjective name (hlater name hname ‹_›).1 other (hlater other hother ‹_›).1 heq

/-! ## Merging a parameter with an argument -/

theorem mergeTo_var_right {env : TypeEnv} (hdetour : type.detour = 0) (hany : type ≠ any)
    (hquantifierFree : type.isQuantifierFree = true) (depth : Nat) (name : String)
    (domain : List Ty) (free : Bool) :
    mergeTo (depth + 1) env store type (var name domain free) =
      mergeTo depth env store (var name domain free) type := by
  cases type with
  | any => exact absurd rfl hany
  | bind => simp [isQuantifierFree, fold] at hquantifierFree
  | var | tuple => simp [detour] at hdetour
  | record | arrow | con => rw [mergeTo] <;> simp

section Parameter

variable {env : TypeEnv} {store : Store} {parameter : String}
  (hacyclic : store.Acyclic) (hunbound : store.get? parameter = none)
  (hdomain : store.domain? parameter = none)
include hacyclic hunbound hdomain

theorem mergeTo_var_parameter {marked : Bool}
    (hthis : store.Resolves env (var name [] free) (var last [] marked)) (hne : last ≠ parameter)
    (hdepth : store.size + 3 ≤ depth) :
    mergeTo depth env store (var name [] free) (plain parameter) = .ok (
      if last < parameter then
        (var last [] marked, store.bind parameter (var last [] marked) marked)
      else
        (var parameter [] marked, store.bind last (var parameter [] marked) marked)) := by
  obtain ⟨depth, rfl⟩ : ∃ less, depth = less + 1 := ⟨depth - 1, by omega⟩
  have hthisOk : instantiateTo depth env [] store (var name [] free) = .ok (var last [] marked) :=
    hthis.instantiateTo_of_acyclic hacyclic (by simp; omega)
  have hotherOk : instantiateTo depth env [] store (plain parameter) = .ok (plain parameter) :=
    (Resolves.var_itself hunbound hdomain [] false).instantiateTo_of_acyclic hacyclic (by
      simp; omega)
  rw [plain] at hotherOk ⊢
  rw [mergeTo]
  · simp only [hthisOk, hotherOk, Except.mapError, ok_bind, mergeVariables,
      hne, if_false, mergeDomain, isEmpty_nil, Bool.and_self,
      Bool.not_true, Bool.and_false, Bool.false_eq_true, Bool.or_false,
      if_true]
    split <;> rfl
  · simp

theorem mergeTo_other_parameter {found : Ty} (hdetour : type.detour = 0) (hany : type ≠ any)
    (hquantifierFree : type.isQuantifierFree = true) (hthis : store.Resolves env type found)
    (hfound : found.isQuantifierFree = true) (hnode : found.detour = 0) (hfoundAny : found ≠ any)
    (hequality : isEqualityName parameter = false) (hmem : parameter ∉ found.term.vars)
    (hdepth : 2 * found.term.height + store.size + 4 ≤ depth) :
    mergeTo depth env store type (plain parameter) =
      .ok (found, store.bind parameter found false) := by
  obtain ⟨depth, rfl⟩ : ∃ less, depth = less + 1 + 1 + 1 := ⟨depth - 3, by omega⟩
  have hthisOk : instantiateTo (depth + 1) env [] store type = .ok found :=
    hthis.instantiateTo_of_acyclic hacyclic (by omega)
  have hotherOk : instantiateTo (depth + 1) env [] store (plain parameter) =
      .ok (plain parameter) :=
    (Resolves.var_itself hunbound hdomain [] false).instantiateTo_of_acyclic hacyclic (by
      simp; omega)
  rw [plain] at hotherOk ⊢
  have hbind : bindTo (depth + 1) env store ⟨parameter, [], false⟩ found =
      .ok (found, store.bind parameter found false) := by
    have hcontains : contains (found.variableDomains false) parameter = false := by
      rw [Bool.eq_false_iff, ne_eq, contains_variableDomains_false hfound]
      exact hmem
    simp only [bindTo, hcontains, Binder.mark, hequality, Bool.false_and,
      Bool.false_eq_true, if_false, isEmpty_nil, Bool.not_true]
    rfl
  rw [mergeTo_var_right hdetour hany hquantifierFree, mergeTo]
  · simp only [hthisOk, hotherOk, Except.mapError, ok_bind]
    cases found with
    | any => exact absurd rfl hfoundAny
    | var | tuple => simp [detour] at hnode
    | bind | record | arrow | con => exact hbind
  · exact hany

end Parameter

end Ty

/-! ## Merging all of them -/

theorem Term.height_subst_le {σ : Subst} {term : Term} {bound : Nat}
    (h : ∀ name ∈ term.vars, (σ name).height ≤ bound) :
    (term.subst σ).height ≤ term.height + bound := by
  induction term with
  | var name => simpa using h name (by simp)
  | node former children ih =>
    have hnode : (node former children).height + bound = heightAll children + bound + 1 := by
      rw [height, Nat.add_right_comm]
    rw [hnode, subst_node, height_node_le_iff]
    intro child hchild
    obtain ⟨original, horiginal, rfl⟩ := mem_map.mp hchild
    have hle := (heightAll_le_iff children _).mp le_rfl original horiginal
    have hsubst := ih original horiginal fun name hname =>
      h name ((mem_vars_node _ _ _).mpr ⟨original, horiginal, hname⟩)
    omega

theorem Ty.height_le_size (type : Ty) : type.term.height ≤ type.size := by
  have hheight := height_le_length (fun inner (h : inner ∈ type.term.nodes) => h)
  have hparts := type.parts_term
  rw [parts] at hparts
  omega

theorem Ty.isQuantifierFree_mapVariables
    (hf : ∀ name domain free, (f name domain free).isQuantifierFree = true)
    (h : type.isQuantifierFree = true) : (type.mapVariables f).isQuantifierFree = true := by
  rw [isQuantifierFree_iff] at h ⊢
  refine h.mapVariables (fun name _ domain free _ =>
    (isQuantifierFree_iff _).mp (hf name domain free)) fun type _ h => ?_
  cases type <;> simp_all [isVar, isJoined, mapComponents]

/-- A type that can take the place of a parameter: an instance under a store,
in variables that are known. -/
structure Ty.Fills (env : TypeEnv) (before : Store) (known : String → Prop) (type : Ty) : Prop where
  resolved : ∃ argument, before.Resolves env argument type
  known : ∀ name ∈ type.term.vars, known name
  quantifierFree : type.isQuantifierFree = true
  notAny : type ≠ .any
  noDomain : ∀ name domain free, type = .var name domain free → domain = []

/-- What a store has become when some parameters are merged with types and
others are still to come. -/
structure Store.Filling (env : TypeEnv) (before : Store)
    (known : String → Prop) (done : List (Ty × String)) (todo : List String)
    (store : Store) : Prop where
  acyclic : store.Acyclic
  size : store.size ≤ before.size + done.length
  domains : store.domains = before.domains
  unused : ∀ name ∈ todo, store.get? name = none
  /-- A known variable leads to a variable: itself or a parameter. -/
  last : ∀ name, known name → ∃ last, last ∉ todo ∧ store.get? last = none ∧
    store.domain? last = none ∧ (last = name ∨ ¬ known last) ∧
    ∀ domain free, ∃ domain' free', (domain = [] → domain' = []) ∧
      store.Resolves env (.var name domain free) (.var last domain' free')
  /-- A known variable that is bound stood against a smaller name. -/
  larger : ∀ name, known name → store.get? name ≠ none →
    ∃ domain free parameter, (var name domain free, parameter) ∈ done ∧ parameter < name
  lost : ∀ name domain free parameter,
    (var name domain free, parameter) ∈ done → parameter < name →
    store.get? name ≠ none
  /-- A parameter stands for its type, unless that has lost variables. -/
  found : ∀ type parameter, (type, parameter) ∈ done →
    (∀ name ∈ type.term.vars, store.get? name = none) →
    ∀ domain free, store.Resolves env (.var parameter domain free) type

theorem Store.Acyclic.bind_open (h : store.Acyclic) (hunbound : store.get? name = none)
    (hopen : ∀ other ∈ type.term.vars, store.get? other = none) (hmem : name ∉ type.term.vars)
    (free : Bool) : (store.bind name type free).Acyclic := by
  obtain ⟨σ, hσ⟩ := h.exists_solves
  refine hσ.acyclic_bind h hunbound (fun hoccurs => ?_) free
  obtain ⟨other, hother, hname⟩ := (mem_vars_subst _ _ _).mp hoccurs
  rw [hσ.unbound other (hopen other hother), vars_var, mem_singleton] at hname
  exact hmem (hname ▸ hother)

theorem Store.get?_bind_of_ne (store : Store) (h : other ≠ name) (type : Ty) (free : Bool) :
    (store.bind name type free).get? other = store.get? other := by
  rw [get?_bind, if_neg (Ne.symm h)]

theorem Store.get?_bind_eq_none_iff :
    (store.bind name type free).get? other = none ↔ other ≠ name ∧ store.get? other = none := by
  rw [get?_bind]
  split
  · simp [*]
  · simp [Ne.symm ‹_›]

theorem Store.size_bind_le (store : Store) (name : String) (type : Ty)
    (free : Bool) : (store.bind name type free).size ≤ store.size + 1 := by
  obtain ⟨bindings, domains⟩ := store
  change (Table.insert bindings name _).length ≤ bindings.length + 1
  induction bindings with
  | nil => simp [Table.insert]
  | cons entry bindings ih =>
    rw [Table.insert]
    split
    · simp
    · split
      · simp
      · simpa using ih

namespace Store.Filling

variable {env : TypeEnv} {before store : Store} {known : String → Prop}
  {done : List (Ty × String)} {todo : List String}

theorem domain? (h : before.Filling env known done todo store)
    (name : String) : store.domain? name = before.domain? name := by
  rw [Store.domain?, h.domains]
  rfl

theorem start (hacyclic : before.Acyclic)
    (hknown : ∀ name, known name → before.get? name = none ∧ before.domain? name = none)
    (htodo : ∀ name ∈ todo, before.get? name = none ∧ ¬ known name) :
    before.Filling env known [] todo before where
  acyclic := hacyclic
  size := le_rfl
  domains := rfl
  unused := fun name hname => (htodo name hname).1
  last := by
    intro name hname
    obtain ⟨hunbound, hdomain⟩ := hknown name hname
    refine ⟨name, fun hmem => (htodo name hmem).2 hname, hunbound, hdomain,
      .inl rfl, fun domain free => ⟨domain, free, id, .var_itself hunbound hdomain domain free⟩⟩
  larger := fun name hname hbound => absurd (hknown name hname).1 hbound
  lost := by simp
  found := by simp

section Step

variable {parameter : String} (h : before.Filling env known done (parameter :: todo) store)
  (hnew : parameter ∉ todo) (hparameter : ¬ known parameter)
  (hdomain : ∀ name, known name → before.domain? name = none)
  {type : Ty} (htype : type.Fills env before known)
include h hnew hparameter hdomain htype

omit hnew hparameter in
theorem itself (hvars : ∀ name ∈ type.term.vars, store.get? name = none) :
    store.Resolves env type type := by
  obtain ⟨argument, hresolved⟩ := htype.resolved
  refine hresolved.itself hvars fun name hname => ?_
  rw [h.domain?]
  exact hdomain name (htype.known name hname)

theorem bindParameter {found : Ty} (hfound : store.Resolves env type found)
    (hmem : parameter ∉ found.term.vars)
    (hsmaller : ∀ name domain free, found = .var name domain free →
      name < parameter) (free : Bool) :
    before.Filling env known ((type, parameter) :: done) todo
      (store.bind parameter found free) := by
  have hunbound := h.unused parameter (by simp)
  constructor
  · exact h.acyclic.bind_open hunbound (fun name hname => hfound.unbound_of_mem hname) hmem free
  · have hsize := store.size_bind_le parameter found free
    have hbefore := h.size
    rw [length_cons]
    omega
  · exact h.domains
  · intro name hname
    rw [get?_bind_of_ne _ (by rintro rfl; exact hnew hname)]
    exact h.unused name (by simp [hname])
  · intro name hname
    obtain ⟨last, htodo, hlast, hdomain, hwhich, hresolves⟩ := h.last name hname
    have hne : last ≠ parameter := by
      rintro rfl
      simp at htodo
    refine ⟨last, fun hmem => htodo (by simp [hmem]),
      get?_bind_eq_none_iff.mpr ⟨hne, hlast⟩, hdomain, hwhich,
      fun domain free' => ?_⟩
    obtain ⟨domain', free', hnone, hresolves⟩ := hresolves domain free'
    exact ⟨domain', free', hnone, hresolves.bind_other hunbound (by simpa using Ne.symm hne) _ _⟩
  · intro name hname hbound
    rw [get?_bind_of_ne _ (by rintro rfl; exact hparameter hname)] at hbound
    obtain ⟨domain, free', other, hmem, hlt⟩ := h.larger name hname hbound
    exact ⟨domain, free', other, by simp [hmem], hlt⟩
  · intro name domain free' other hother hlt hlost
    obtain ⟨hne, hlost⟩ := get?_bind_eq_none_iff.mp hlost
    rcases mem_cons.mp hother with heq | hother
    · cases heq
      -- It would still stand for itself, and be smaller.
      have hself := h.itself hdomain htype (by simpa using hlost)
      exact lt_asymm hlt (hsmaller name domain free' (hfound.unique hself))
    · exact h.lost name domain free' other hother hlt hlost
  · intro other otherParameter hother hvars domain free'
    have hvars : ∀ name ∈ other.term.vars, name ≠ parameter ∧
        store.get? name = none := fun name hname =>
      get?_bind_eq_none_iff.mp (hvars name hname)
    have hmissing : parameter ∉ other.term.vars := fun hmem => (hvars parameter hmem).1 rfl
    rcases mem_cons.mp hother with heq | hother
    · cases heq
      have hself := h.itself hdomain htype fun name hname => (hvars name hname).2
      cases hfound.unique hself
      have hbinding : (store.bind parameter type free).get? parameter = some ⟨type, free⟩ := by
        rw [get?_bind, if_pos rfl]
      exact .bound domain free' hbinding (hself.bind_other hunbound hmem _ _)
    · exact (h.found other otherParameter hother
        (fun name hname => (hvars name hname).2) domain free').bind_other
        hunbound hmissing _ _

theorem bindLast (hfound : store.Resolves env type (.var last [] free)) (hlarger : parameter < last)
    (hopen : before.domain? parameter = none) :
    before.Filling env known ((type, parameter) :: done) todo
      (store.bind last (.var parameter [] free) free) := by
  have hunbound := h.unused parameter (by simp)
  have hlast : store.get? last = none := hfound.unbound_of_mem (by simp)
  have hne : parameter ≠ last := ne_of_lt hlarger
  obtain ⟨name, domain, marked, rfl⟩ := hfound.exists_var
  have hname := htype.known name (by simp)
  -- The variable is the last one that the type leads to.
  have hwhich : last ∉ parameter :: todo ∧ (last = name ∨ ¬ known last) := by
    obtain ⟨other, htodo, _, _, hwhich, hresolves⟩ := h.last name hname
    obtain ⟨_, _, _, hresolves⟩ := hresolves domain marked
    cases hfound.unique hresolves
    exact ⟨htodo, hwhich⟩
  let after := store.bind last (.var parameter [] free) free
  have hstays : after.get? parameter = none := get?_bind_eq_none_iff.mpr ⟨hne, hunbound⟩
  have hlost : after.get? name ≠ none := by
    intro hnone
    obtain ⟨hother, hnone⟩ := get?_bind_eq_none_iff.mp hnone
    cases hfound.unique (h.itself hdomain htype (by simpa using hnone))
    exact hother rfl
  have hdomain' : after.domain? parameter = none := (h.domain? parameter).trans hopen
  have htarget : ∀ domain free',
      after.Resolves env (.var last domain free') (.var parameter [] free) := by
    intro domain free'
    have hbinding : (store.bind last (.var parameter [] free) free).get? last =
        some ⟨.var parameter [] free, free⟩ := by
      rw [get?_bind, if_pos rfl]
    exact .bound domain free' hbinding (.var_itself hstays hdomain' [] free)
  constructor
  · refine h.acyclic.bind_open hlast ?_ ?_ free
    · simpa using hunbound
    · simpa using Ne.symm hne
  · have hsize := store.size_bind_le last (.var parameter [] free) free
    have hbefore := h.size
    rw [length_cons]
    omega
  · exact h.domains
  · intro other hother
    rw [get?_bind_of_ne _ (by rintro rfl; exact hwhich.1 (by simp [hother]))]
    exact h.unused other (by simp [hother])
  · intro other hother
    obtain ⟨final, htodo, hfinal, hfinalDomain, hfinalWhich, hresolves⟩ := h.last other hother
    by_cases heq : final = last
    · subst heq
      refine ⟨parameter, hnew, hstays, hdomain', .inr hparameter,
        fun domain free' => ⟨[], free, fun _ => rfl, ?_⟩⟩
      obtain ⟨_, _, _, hresolves⟩ := hresolves domain free'
      exact hresolves.bind_last hlast htarget
    · refine ⟨final, fun hmem => htodo (by simp [hmem]),
        get?_bind_eq_none_iff.mpr ⟨heq, hfinal⟩, hfinalDomain, hfinalWhich,
        fun domain free' => ?_⟩
      obtain ⟨domain', free', hnone, hresolves⟩ := hresolves domain free'
      exact ⟨domain', free', hnone, hresolves.bind_other hlast (by simpa using Ne.symm heq) _ _⟩
  · intro other hother hbound
    by_cases heq : other = last
    · subst heq
      obtain rfl := hwhich.2.resolve_right (not_not.mpr hother)
      exact ⟨domain, marked, parameter, by simp, hlarger⟩
    · rw [get?_bind_of_ne _ heq] at hbound
      obtain ⟨domain', free', earlier, hmem, hlt⟩ := h.larger other hother hbound
      exact ⟨domain', free', earlier, by simp [hmem], hlt⟩
  · intro other domain' free' earlier hearlier hlt hnone
    rcases mem_cons.mp hearlier with heq | hearlier
    · cases heq
      exact hlost hnone
    · exact h.lost other domain' free' earlier hearlier hlt (get?_bind_eq_none_iff.mp hnone).2
  · intro other earlier hearlier hvars domain' free'
    rcases mem_cons.mp hearlier with heq | hearlier
    · cases heq
      exact absurd (hvars name (by simp)) hlost
    · have hvars : ∀ name ∈ other.term.vars, name ≠ last ∧
          store.get? name = none := fun name hname =>
        get?_bind_eq_none_iff.mp (hvars name hname)
      exact (h.found other earlier hearlier (fun name hname =>
        (hvars name hname).2) domain' free').bind_other hlast
        (fun hmem => (hvars last hmem).1 rfl) _ _

omit hnew hparameter hdomain in
/-- What a type stands for now differs from it in its variables only, which
are not those to come. -/
theorem exists_resolves : ∃ f : String → List Ty → Bool → Ty,
    store.Resolves env type (type.mapVariables f) ∧
    parameter ∉ (type.mapVariables f).term.vars ∧
    (type.mapVariables f).term.height ≤ type.term.height ∧
    (type.mapVariables f).isQuantifierFree = true := by
  have hchoice : ∀ name, known name → ∃ last, last ≠ parameter ∧ ∀ domain free, ∃ domain' free',
      store.Resolves env (.var name domain free) (.var last domain' free') := by
    intro name hname
    obtain ⟨last, htodo, _, _, _, hresolves⟩ := h.last name hname
    refine ⟨last, ?_, fun domain free => ?_⟩
    · rintro rfl
      simp at htodo
    · obtain ⟨domain', free', _, hresolves⟩ := hresolves domain free
      exact ⟨domain', free', hresolves⟩
  choose! last hne domains marks hresolves using hchoice
  let f (name : String) (domain : List Ty) (free : Bool) : Ty :=
    .var (last name) (domains name domain free) (marks name domain free)
  have hf : ∀ name domain free, (f name domain free).term = .var (last name) := fun _ _ _ => rfl
  have hterm := term_mapVariables hf type
  obtain ⟨argument, hresolved⟩ := htype.resolved
  refine ⟨f, hresolved.again fun name hname domain free =>
    hresolves name (htype.known name hname) domain free, ?_, ?_, ?_⟩
  · rw [hterm, mem_vars_subst]
    rintro ⟨name, hname, hmem⟩
    rw [vars_var, mem_singleton] at hmem
    exact hne name (htype.known name hname) hmem.symm
  · have hvars : ∀ name ∈ type.term.vars, (Term.var (last name)).height ≤ 0 := fun _ _ => le_rfl
    rw [hterm]
    exact height_subst_le hvars
  · exact isQuantifierFree_mapVariables (fun _ _ _ => rfl) htype.quantifierFree

theorem merge (hequality : isEqualityName parameter = false)
    (hopen : before.domain? parameter = none)
    (hdepth : 2 * type.term.height + before.size + done.length + 4 ≤ depth) :
    ∃ merged store', mergeTo depth env store type (.plain parameter) = .ok (merged, store') ∧
      before.Filling env known ((type, parameter) :: done) todo store' := by
  have hunbound := h.unused parameter (by simp)
  have hparameterDomain := (h.domain? parameter).trans hopen
  have hsize := h.size
  by_cases hvar : ∃ name domain free, type = .var name domain free
  · obtain ⟨name, domain, free, rfl⟩ := hvar
    obtain rfl := htype.noDomain name domain free rfl
    obtain ⟨last, htodo, _, _, _, hresolves⟩ := h.last name (htype.known name (by simp))
    obtain ⟨domain, marked, hnone, hfound⟩ := hresolves [] free
    obtain rfl := hnone rfl
    have hne : last ≠ parameter := by
      rintro rfl
      simp at htodo
    have hroom : store.size + 3 ≤ depth := by omega
    have hmerged := mergeTo_var_parameter h.acyclic hunbound hparameterDomain hfound hne hroom
    split at hmerged
    · rename_i hlt
      refine ⟨_, _, hmerged, h.bindParameter hnew hparameter hdomain htype
        hfound (by simpa using Ne.symm hne) ?_ _⟩
      rintro _ _ _ ⟨⟩
      exact hlt
    · rename_i hlt
      exact ⟨_, _, hmerged, h.bindLast hnew hparameter hdomain htype hfound
        (lt_of_le_of_ne (not_lt.mp hlt) (Ne.symm hne)) hopen⟩
  · obtain ⟨f, hfound, hmem, hheight, hquantifierFree⟩ := h.exists_resolves htype
    have hshape : type.detour = 0 ∧ (type.mapVariables f).detour = 0 ∧
        type.mapVariables f ≠ .any := by
      obtain ⟨argument, hresolved⟩ := htype.resolved
      cases type with
      | any => exact absurd rfl htype.notAny
      | var name domain free => exact absurd ⟨_, _, _, rfl⟩ hvar
      | bind => exact absurd htype.quantifierFree (by simp [Ty.isQuantifierFree, Ty.fold])
      | tuple elements => exact absurd rfl (hresolved.ne_tuple elements)
      | arrow => exact ⟨rfl, rfl, Ty.noConfusion⟩
      | record | con =>
        rw [mapVariables_eq f rfl]
        exact ⟨rfl, rfl, Ty.noConfusion⟩
    have hroom : 2 * (type.mapVariables f).term.height + store.size + 4 ≤ depth := by omega
    refine ⟨_, _, mergeTo_other_parameter h.acyclic hunbound
      hparameterDomain hshape.1 htype.notAny htype.quantifierFree hfound
      hquantifierFree hshape.2.1 hshape.2.2 hequality hmem hroom,
      h.bindParameter hnew hparameter hdomain htype hfound hmem ?_ _⟩
    intro name domain free heq
    rw [heq] at hfound
    exact absurd hfound.exists_var hvar

end Step

theorem mergePairs {pairs : List (Ty × String)}
    (h : before.Filling env known done (pairs.map (·.2)) store) (hnodup : (pairs.map (·.2)).Nodup)
    (hdomain : ∀ name, known name → before.domain? name = none)
    (hpairs : ∀ pair ∈ pairs, pair.1.Fills env before known ∧
      ¬ known pair.2 ∧ isEqualityName pair.2 = false ∧
      before.domain? pair.2 = none ∧
      2 * pair.1.term.height + before.size + done.length + pairs.length + 4 ≤ depth) :
    ∃ merged store', mergePairs (mergeTo depth env) store
        (pairs.map fun pair => (pair.1, .plain pair.2)) = .ok (merged, store') ∧
      before.Filling env known (pairs.reverse ++ done) [] store' := by
  induction pairs generalizing store done with
  | nil => exact ⟨_, _, rfl, h⟩
  | cons pair pairs ih =>
    obtain ⟨htype, hparameter, hequality, hopen, hdepth⟩ := hpairs pair (by simp)
    rw [map_cons, nodup_cons] at hnodup
    rw [length_cons] at hdepth
    have hroom : 2 * pair.1.term.height + before.size + done.length + 4 ≤ depth := by omega
    obtain ⟨first, middle, hfirst, hmiddle⟩ := h.merge hnodup.1 hparameter
      hdomain htype hequality hopen hroom
    obtain ⟨others, store', hothers, hfilled⟩ := ih hmiddle hnodup.2 fun other hother => by
        obtain ⟨htype, hparameter, hequality, hopen, hdepth⟩ := hpairs other (by simp [hother])
        rw [length_cons] at hdepth ⊢
        exact ⟨htype, hparameter, hequality, hopen, by omega⟩
    refine ⟨first :: others, store', ?_, ?_⟩
    · rw [map_cons, mergePairs, hfirst, ok_bind]
      simp only [hothers, ok_bind]
      rfl
    · simpa using hfilled

end Store.Filling

/-! ## The body of an abbreviation -/

namespace Ty

/-- Whether neither an abbreviation nor a binder occurs, and declared types
have the arguments they take. -/
def isApplied (env : TypeEnv) : Ty → Bool := fold {
    any := true
    var := fun _ _ _ => true
    bind := fun _ _ _ _ _ => false
    record := fun fields _ => fields.all (·.2)
    arrow := fun parameter result => parameter && result
    con := fun head arguments =>
      env.takes head arguments.length && arguments.all id
    tuple := fun elements => elements.all id }

def filled (env : TypeEnv) (types : String → Ty) : Ty → Ty := fold { rebuild with
    var := fun name _ _ => types name
    con := fun head arguments => .con (env.shown head) arguments
    tuple := fun elements => .record (tupleFields elements) true }

section Applied

variable {env : TypeEnv}

def Applies (env : TypeEnv) : Ty → Prop
  | .bind _ _ _ _ => False
  | .con head arguments => env.takes head arguments.length = true
  | _ => True

theorem isApplied_iff (type : Ty) : type.isApplied env = true ↔ type.Throughout (Applies env) :=
  iff_throughout (·.isApplied env = true) (fun type => by
    cases type <;> simp [isApplied, Applies, fold, components, mapValues, -Prod.forall,
      -Prod.exists]) type

theorem isQuantifierFree_of_isApplied (h : type.isApplied env = true) :
    type.isQuantifierFree = true := by
  rw [isApplied_iff] at h
  exact (isQuantifierFree_iff _).mpr <| h.mono fun type h => by
    cases type <;> simp_all [Applies, isVar, isJoined]

variable {types : String → Ty}

theorem filled_eq (h : type.isVar = false) : type.filled env types =
    (type.untupled.shownHead env).mapComponents (filled env types) := by
  cases type with
  | tuple elements =>
    change _ = record (mapValues _ (tupleFields elements)) true
    rw [← tupleFields_map]
    simp only [filled, fold, foldList_eq_map]
  | var => cases h
  | _ => simp [filled, fold, rebuild, untupled, shownHead, mapComponents]

theorem term_filled (type : Ty) : (type.filled env types).term =
      type.term.subst fun name => (types name).term := by
  induction type using induct_components with
  | var => rfl
  | node type h ih =>
    have huntupled : type.untupled.isVar = false := by cases type <;> first | rfl | exact h
    rw [filled_eq h, ← term_untupled type]
    exact term_formed huntupled fun part hpart => ih part (mem_of_mem_untupled hpart)

end Applied

end Ty

namespace Store

variable {env : TypeEnv} {store : Store}

theorem Resolves.simplify {result : Ty} (h : store.Resolves env type result) :
    store.Resolves env type.simplify result := by
  induction h using Resolves.induct_node with
  | unbound domain free hname => exact .unbound domain free hname
  | bound domain free hbinding hresolves _ => exact .bound domain free hbinding hresolves
  | node f hform _ ih =>
    rw [simplify_eq, untupled_of_isFormed hform]
    exact .node_map hform ih
  | tuple h _ => exact h

theorem resolves_mapVariables {body : Ty} (hbody : body.isApplied env = true)
    (h : ∀ name ∈ body.term.vars, ∀ domain free,
      store.Resolves env (f name domain free) (types name)) :
    store.Resolves env (body.mapVariables f) (body.filled env types) := by
  rw [isApplied_iff] at hbody
  induction hbody with
  | @intro body happlies _ ih =>
    cases hvar : body.isVar with
    | true =>
      obtain ⟨name, domain, free, rfl⟩ := exists_of_isVar hvar
      exact h name (by simp) domain free
    | false =>
      have ih := fun part hpart => ih part hpart fun name hname =>
        h name ((mem_vars_iff hvar name).mpr ⟨part, hpart, hname⟩)
      have hform : body.untupled.isFormed env = true := by
        cases body <;> simp_all [isFormed, untupled, Applies, isVar]
      rw [mapVariables_eq f hvar, filled_eq hvar]
      cases body with
      | tuple elements =>
        refine .tuple ?_
        change store.Resolves env (simplify ((tuple elements).mapComponents _)) _
        rw [simplify_eq, untupled_mapComponents, mapComponents_mapComponents]
        exact .node_map hform fun part hpart => (ih part (mem_of_mem_untupled hpart)).simplify
      | _ => exact .node_map hform ih

end Store

/-! ## Both ways of unfolding -/

/-- An abbreviation applied to arguments with these instances.  Its parameters
are different variables, its body mentions no others, and the names that are
made up are new. -/
structure Abbreviation.Applied (env : TypeEnv) (store : Store)
    (abbreviation : Abbreviation) (names : List String) (head : TyCon)
    (arguments instances : List Ty) : Prop where
  definition : (env.definition? head).bind TypeInfo.abbreviation? = some abbreviation
  same : head.same abbreviation.head = true
  parameters : abbreviation.parameters = names.map .plain
  nodup : names.Nodup
  noEquality : ∀ name ∈ names, isEqualityName name = false
  body : abbreviation.body.isApplied env = true
  closed : ∀ name ∈ abbreviation.body.term.vars, name ∈ names
  length : arguments.length = names.length
  settled : ∀ argument ∈ arguments, store.Settled env argument
  resolved : arguments.mapM (Ty.instantiate env store) = .ok instances
  quantifierFree : ∀ type ∈ instances, type.isQuantifierFree = true
  notAny : Ty.any ∉ instances
  noDomain : ∀ name domain free, .var name domain free ∈ instances → domain = []
  unrestricted : ∀ type ∈ instances, ∀ name ∈ type.term.vars, store.domain? name = none
  fresh : ∀ parameter, .plain parameter ∈ (Ty.renewAbbreviation store abbreviation).parameters →
    store.domain? parameter = none ∧ ∀ type ∈ instances, parameter ∉ type.term.vars

theorem Ty.zip_plain (types : List Ty) (names : List String) (f : String → String) :
    types.zip (names.map fun name => plain (f name)) =
      (types.zip (names.map f)).map fun pair => (pair.1, plain pair.2) := by
  have hmap : names.map (fun name => plain (f name)) = (names.map f).map plain := by
    rw [List.map_map]
    rfl
  rw [hmap, zip_map_right]
  rfl

theorem Elab.applyAbbreviation_eq {abbreviation : Abbreviation} {names : List String}
    (h : abbreviation.parameters = names.map .plain) (arguments : List Ty) :
    applyAbbreviation abbreviation arguments =
      abbreviation.body.substitute (ofList (names.zip arguments)) := by
  rw [applyAbbreviation, h, zip_map_left, filterMap_map]
  refine congrArg (fun entries => substitute (ofList entries) abbreviation.body) ?_
  exact filterMap_some

namespace Abbreviation.Applied

variable {env : TypeEnv} {store : Store} {abbreviation : Abbreviation}
  {names : List String} {head : TyCon} {arguments instances : List Ty}
  (h : abbreviation.Applied env store names head arguments instances)
include h

theorem exists_renewed : ∃ fresh : String → String, renewAbbreviation store abbreviation =
      { abbreviation with
        parameters := names.map fun name => .plain (fresh name)
        body := abbreviation.body.mapVariables fun name domain free =>
          .var (fresh name) domain free } ∧
    (names.map fresh).Nodup ∧
    ∀ name ∈ names, store.get? (fresh name) = none ∧ isEqualityName (fresh name) = false := by
  let whole := arrow (.con abbreviation.head abbreviation.parameters) abbreviation.body
  have hbody := isQuantifierFree_of_isApplied h.body
  have hwhole : whole.isQuantifierFree = true := by
    have hparameters : ∀ parameter ∈ abbreviation.parameters,
        parameter.isQuantifierFree = true := by
      rw [h.parameters]
      exact forall_mem_map.mpr fun _ _ => rfl
    simpa [whole, isQuantifierFree, fold] using And.intro hparameters hbody
  have hmem : ∀ name, name ∈ whole.variableNames ↔ name ∈ names := by
    intro name
    rw [mem_variableNames hwhole]
    simp only [whole, term_arrow, mem_vars_node, mem_cons,
      not_mem_nil, or_false, exists_eq_or_imp, exists_eq_left,
      mem_vars_con, h.parameters]
    constructor
    · rintro (⟨parameter, hparameter, hname⟩ | hname)
      · obtain ⟨other, hother, rfl⟩ := mem_map.mp hparameter
        obtain rfl : name = other := by simpa [plain] using hname
        exact hother
      · exact h.closed name hname
    · exact fun hname => .inl ⟨.plain name, mem_map.mpr ⟨name, hname, rfl⟩, by simp [plain]⟩
  obtain ⟨number, hnumber, hinjective⟩ := exists_expansionNames store 1
    whole.variableNames fun name hname => h.noEquality name ((hmem name).mp hname)
  let table := expansionNames store 1 whole.variableNames
  have hfresh : ∀ name ∈ names, (get? table name).getD name = madeUp (number name) := by
    intro name hname
    rw [(hnumber name ((hmem name).mpr hname)).2.1, getD_some]
  refine ⟨fun name => (get? table name).getD name, ?_, ?_, ?_⟩
  · have hrename : rename table abbreviation.body =
        abbreviation.body.mapVariables fun name domain free =>
          .var ((get? table name).getD name) domain free :=
      fold_eq_mapVariables _ _ hbody
    have hparameters : abbreviation.parameters.map (rename table) =
        names.map fun name => .plain ((get? table name).getD name) := by
      rw [h.parameters, List.map_map]
      rfl
    rw [← hrename, ← hparameters]
    rfl
  · refine h.nodup.map_on fun name hname other hother heq => ?_
    rw [hfresh name hname, hfresh other hother] at heq
    exact hinjective name ((hmem name).mpr hname) other
      ((hmem other).mpr hother) (madeUp_injective heq)
  · intro name hname
    dsimp only
    rw [hfresh name hname]
    exact ⟨(hnumber name ((hmem name).mpr hname)).2.2, isEqualityName_madeUp _⟩

theorem exists_instances : ∃ choice : Ty → Ty, instances = arguments.map choice ∧
    ∀ argument ∈ arguments, store.Resolves env argument (choice argument) := by
  obtain ⟨choice, hchoice⟩ := Resolves.exists_choice env store
  have hresolves : ∀ argument ∈ arguments, store.Resolves env argument (choice argument) := by
    intro argument hargument
    obtain ⟨result, hresult⟩ := eq_ok_of_mapM h.resolved argument hargument
    have hresolves := (resolves_iff (h.settled argument hargument) result).mpr hresult
    rwa [hchoice _ _ hresolves]
  have hmap : arguments.mapM (instantiate env store) = .ok (arguments.map choice) :=
    mapM_eq_ok fun argument hargument => (hresolves argument hargument).instantiate_eq
  exact ⟨choice, Except.ok.inj (h.resolved.symm.trans hmap), hresolves⟩

theorem get?_zip (hentry : (name, argument) ∈ names.zip arguments) :
    get? (ofList (names.zip arguments)) name = some argument := by
  refine get?_ofList_of_nodup ?_ hentry
  rw [map_fst_zip h.length.ge]
  exact h.nodup

theorem exists_types : ∃ types : String → Ty, instances = names.map types ∧
    ∀ name argument, (name, argument) ∈ names.zip arguments →
      store.Resolves env argument (types name) := by
  obtain ⟨choice, hinstances, hresolves⟩ := h.exists_instances
  let types (name : String) : Ty := ((get? (ofList (names.zip arguments)) name).map
      choice).getD .any
  have htypes : ∀ entry ∈ names.zip arguments, types entry.1 = choice entry.2 := by
    intro entry hentry
    simp only [types, h.get?_zip hentry, map_some, getD_some]
  refine ⟨types, ?_, fun name argument hentry => ?_⟩
  · calc instances = ((names.zip arguments).map (·.2)).map choice := by
          rw [map_snd_zip h.length.le, hinstances]
      _ = ((names.zip arguments).map (·.1)).map types := by
          rw [List.map_map, List.map_map]
          exact map_congr_left fun entry hentry => (htypes entry hentry).symm
      _ = names.map types := by rw [map_fst_zip h.length.ge]
  · rw [htypes _ hentry]
    exact hresolves argument (of_mem_zip hentry).2

theorem resolves_applied (htypes : ∀ name argument, (name, argument) ∈ names.zip arguments →
      store.Resolves env argument (types name)) :
    store.Resolves env (Elab.applyAbbreviation abbreviation arguments)
      (abbreviation.body.filled env types) := by
  rw [Elab.applyAbbreviation_eq h.parameters, substitute,
    fold_eq_mapVariables _ _ (isQuantifierFree_of_isApplied h.body)]
  refine resolves_mapVariables h.body fun name hname domain free => ?_
  have hmem : name ∈ (names.zip arguments).map (·.1) := by
    rw [map_fst_zip h.length.ge]
    exact h.closed name hname
  obtain ⟨⟨_, argument⟩, hentry, rfl⟩ := mem_map.mp hmem
  rw [h.get?_zip hentry, getD_some]
  exact htypes _ _ hentry

theorem instantiateTo_eq
    (harguments : arguments.mapM (instantiateTo depth env [] store) = .ok instances)
    {merged : List Ty} {store' : Store} (hmerged : mergePairs (mergeTo depth env) store
      (instances.zip (renewAbbreviation store abbreviation).parameters) = .ok (merged, store')) :
    instantiateTo (depth + 1) env [] store (.con head arguments) =
      instantiateTo depth env [] store' (renewAbbreviation store abbreviation).body := by
  obtain ⟨info, hinfo, habbreviation⟩ := bind_eq_some_iff.mp h.definition
  have hlength : instances.length =
      (renewAbbreviation store abbreviation).parameters.length := by
    rw [length_of_mapM harguments, h.length, renewAbbreviation,
      length_map, h.parameters, length_map]
  have hcons : mergeCons (mergeTo depth env) store head instances
      (renewAbbreviation store abbreviation).head
      (renewAbbreviation store abbreviation).parameters =
        .ok (.con { head with hidden := head.hidden ||
          (renewAbbreviation store abbreviation).head.hidden } merged,
          store') := by
    have hsame : head.same (renewAbbreviation store abbreviation).head = true := h.same
    rw [mergeCons, hsame, hlength, beq_self_eq_true, Bool.and_self, if_pos rfl, hmerged]
    rfl
  rw [instantiateTo, harguments, ok_bind, hinfo]
  simp only [habbreviation, hcons]

theorem resolves_of_mem (htype : type ∈ instances) :
    ∃ argument ∈ arguments, store.Resolves env argument type := by
  obtain ⟨choice, rfl, hresolves⟩ := h.exists_instances
  obtain ⟨argument, hargument, rfl⟩ := mem_map.mp htype
  exact ⟨argument, hargument, hresolves argument hargument⟩

theorem mapM_instantiateTo (hacyclic : store.Acyclic)
    (hdepth : ∀ argument ∈ arguments, 2 * (argument.size + store.weight) + store.size + 2 ≤ depth) :
    arguments.mapM (instantiateTo depth env [] store) = .ok instances := by
  obtain ⟨choice, rfl, hresolves⟩ := h.exists_instances
  refine mapM_eq_ok fun argument hargument => ?_
  have hheight := (hresolves argument hargument).height_le hacyclic
  have hroom := hdepth argument hargument
  exact (hresolves argument hargument).instantiateTo_of_acyclic hacyclic (by omega)

def known (instances : List Ty) (name : String) : Prop := ∃ type ∈ instances, name ∈ type.term.vars

theorem fills_of_mem (htype : type ∈ instances) : type.Fills env store (known instances) where
  resolved := by
    obtain ⟨argument, _, hresolves⟩ := h.resolves_of_mem htype
    exact ⟨argument, hresolves⟩
  known := fun name hname => ⟨type, htype, hname⟩
  quantifierFree := h.quantifierFree type htype
  notAny := fun heq => h.notAny (heq ▸ htype)
  noDomain := fun name domain free heq =>
    h.noDomain name domain free (heq ▸ htype)

theorem exists_filling (hacyclic : store.Acyclic) {fresh : String → String}
    (hparameters : (renewAbbreviation store abbreviation).parameters =
      names.map fun name => .plain (fresh name)) (hnodup : (names.map fresh).Nodup)
    (hfresh : ∀ name ∈ names, store.get? (fresh name) = none ∧
      isEqualityName (fresh name) = false)
    (hdepth : ∀ type ∈ instances, 2 * type.term.height + store.size + names.length + 4 ≤ depth) :
    ∃ merged store', mergePairs (mergeTo depth env) store
        (instances.zip (renewAbbreviation store abbreviation).parameters) =
          .ok (merged, store') ∧
      store.Filling env (known instances) (instances.zip (names.map fresh)).reverse [] store' := by
  have hlength : instances.length = names.length := (length_of_mapM h.resolved).trans h.length
  have hsnd : (instances.zip (names.map fresh)).map (·.2) = names.map fresh :=
    map_snd_zip (by rw [length_map, hlength])
  have hnew : ∀ parameter ∈ names.map fresh,
      store.get? parameter = none ∧ isEqualityName parameter = false ∧
        store.domain? parameter = none ∧ ¬ known instances parameter := by
    intro parameter hparameter
    obtain ⟨name, hname, rfl⟩ := mem_map.mp hparameter
    have hmade := h.fresh (fresh name) (by
      rw [hparameters]
      exact mem_map.mpr ⟨name, hname, rfl⟩)
    refine ⟨(hfresh name hname).1, (hfresh name hname).2, hmade.1, ?_⟩
    rintro ⟨type, htype, hmem⟩
    exact hmade.2 type htype hmem
  have hstart : store.Filling env (known instances) []
      ((instances.zip (names.map fresh)).map (·.2)) store := by
    rw [hsnd]
    refine .start hacyclic ?_ fun name hname => ⟨(hnew name hname).1, (hnew name hname).2.2.2⟩
    rintro name ⟨type, htype, hname⟩
    obtain ⟨argument, _, hresolves⟩ := h.resolves_of_mem htype
    exact ⟨hresolves.unbound_of_mem hname, h.unrestricted type htype name hname⟩
  have hpairs : ∀ pair ∈ instances.zip (names.map fresh),
      pair.1.Fills env store (known instances) ∧ ¬ known instances pair.2 ∧
      isEqualityName pair.2 = false ∧ store.domain? pair.2 = none ∧
      2 * pair.1.term.height + store.size + ([] : List (Ty × String)).length +
        (instances.zip (names.map fresh)).length + 4 ≤ depth := by
    rintro ⟨type, parameter⟩ hpair
    obtain ⟨htype, hparameter⟩ := of_mem_zip hpair
    obtain ⟨_, hequality, hdomain, hknown⟩ := hnew parameter hparameter
    refine ⟨h.fills_of_mem htype, hknown, hequality, hdomain, ?_⟩
    have hroom := hdepth type htype
    simp only [length_nil, length_zip, length_map, hlength, min_self]
    omega
  have hdomain : ∀ name, known instances name → store.domain? name = none := by
    rintro name ⟨type, htype, hname⟩
    exact h.unrestricted type htype name hname
  have hmerged := hstart.mergePairs (by rwa [hsnd]) hdomain hpairs
  rw [hparameters, zip_plain]
  simpa using hmerged

end Abbreviation.Applied

/-- Instantiating an abbreviation that is applied to arguments gives the same
as putting the arguments for the parameters, exactly if every variable of the
result that is an argument has a smaller name than the variable made up for
its parameter.  Any room that the declared body fits in is enough. -/
theorem Ty.instantiate_abbreviation_iff {env : TypeEnv} {store : Store}
    (hacyclic : store.Acyclic) {abbreviation : Abbreviation}
    {names : List String} {head : TyCon} {arguments instances : List Ty}
    (h : abbreviation.Applied env store names head arguments instances) :
    ∃ expanded, instantiate env store (Elab.applyAbbreviation abbreviation arguments) =
        .ok expanded ∧
      ∀ room, 2 * abbreviation.body.size + names.length + 8 ≤ room →
        (instantiateWithin room env store (con head arguments) = .ok expanded ↔
          ∀ name domain free parameter, (var name domain free, plain parameter) ∈
              instances.zip (renewAbbreviation store abbreviation).parameters →
            name ∈ expanded.term.vars → name < parameter) := by
  obtain ⟨types, hinstances, htypes⟩ := h.exists_types
  obtain ⟨fresh, hrenewed, hnodup, hfresh⟩ := h.exists_renewed
  have hparameters := congrArg Abbreviation.parameters hrenewed
  have happlied := h.resolves_applied htypes
  refine ⟨_, happlied.instantiate_eq, fun room hroom => ?_⟩
  -- What the depth has to suffice for.
  let depth := room - 1 + 2 * ((con head arguments).size + store.weight) + store.size
  have hargument : ∀ argument ∈ arguments,
      argument.size < (con head arguments).size := fun _ hmem => size_lt_of_mem hmem
  have hheight : ∀ type ∈ instances,
      type.term.height < (con head arguments).size + store.weight := by
    intro type htype
    obtain ⟨argument, hmem, hresolves⟩ := h.resolves_of_mem htype
    have hle := hresolves.height_le hacyclic
    have hlt := hargument argument hmem
    omega
  have harguments : arguments.mapM (instantiateTo depth env [] store) = .ok instances := by
    refine h.mapM_instantiateTo hacyclic fun argument hmem => ?_
    have hlt := hargument argument hmem
    omega
  obtain ⟨merged, store', hmerged, hfilling⟩ := h.exists_filling hacyclic hparameters hnodup hfresh
      (fun type htype => show _ ≤ depth by
        have hlt := hheight type htype
        omega)
  have hdepth : room + 2 * ((con head arguments).size + store.weight) + store.size =
        depth + 1 := by omega
  rw [instantiateWithin, hdepth, h.instantiateTo_eq harguments hmerged]
  have hpair : ∀ name domain free parameter, (var name domain free, plain parameter) ∈
        instances.zip (renewAbbreviation store abbreviation).parameters ↔
      (var name domain free, parameter) ∈ (instances.zip (names.map fresh)).reverse := by
    intro name domain free parameter
    rw [hparameters, zip_plain, List.mem_reverse, List.mem_map]
    simp [plain]
  constructor
  · intro hok name domain free parameter hmem hname
    have hunbound := unbound_of_instantiateTo _ _ _ _ _ hok name hname
    by_contra hnot
    refine hfilling.lost name domain free parameter
      ((hpair _ _ _ _).mp hmem) (lt_of_le_of_ne (not_lt.mp hnot) ?_) hunbound
    rintro rfl
    obtain ⟨htype, hparameter⟩ := of_mem_zip hmem
    exact (h.fresh parameter hparameter).2 _ htype (by simp)
  · intro hsmaller
    -- No variable of the result is lost.
    have hopen : ∀ name ∈ abbreviation.body.term.vars,
        ∀ other ∈ (types name).term.vars, store'.get? other = none := by
      intro name hname other hother
      by_contra hbound
      have htype : types name ∈ instances :=
        hinstances ▸ mem_map.mpr ⟨name, h.closed name hname, rfl⟩
      obtain ⟨domain, free, parameter, hmem, hlt⟩ := hfilling.larger other ⟨_, htype, hother⟩ hbound
      refine lt_asymm hlt (hsmaller other domain free parameter ((hpair _ _ _ _).mpr hmem) ?_)
      rw [term_filled, Term.mem_vars_subst]
      exact ⟨name, hname, hother⟩
    have hresolves : store'.Resolves env (renewAbbreviation store abbreviation).body
        (abbreviation.body.filled env types) := by
      rw [hrenewed]
      refine Store.resolves_mapVariables h.body fun name hname =>
        hfilling.found (types name) (fresh name) ?_ (hopen name hname)
      rw [mem_reverse, hinstances, zip_map']
      exact mem_map.mpr ⟨name, h.closed name hname, rfl⟩
    refine hresolves.instantiateTo_of_acyclic hfilling.acyclic ?_
    have hle : (abbreviation.body.filled env types).term.height ≤ abbreviation.body.term.height +
          ((con head arguments).size + store.weight) := by
      rw [term_filled]
      refine Term.height_subst_le fun name hname => ?_
      exact (hheight _ (hinstances ▸ mem_map.mpr ⟨name, h.closed name hname, rfl⟩)).le
    have hbody := abbreviation.body.height_le_size
    have hsize := hfilling.size
    rw [length_reverse, length_zip, length_map] at hsize
    have hmin := Nat.min_le_right instances.length names.length
    omega

def swapped : Abbreviation where
  head := { name := "swapped" }
  parameters := [.plain "'a", .plain "'b"]
  body := .tuple [.plain "'b", .plain "'a"]

def swappedEnv : TypeEnv where
  type? path name :=
    if path = [] ∧ name = "swapped" then some (.ofAbbreviation swapped)
    else none
  value? _ _ := none
  assumed? _ _ := none

/-- One variable is bound to lists of another. -/
def swappedStore : Store where
  bindings := [("'c", ⟨.list (.plain "''d"), false⟩)]

theorem swapped_renewed {parameter : String}
    (h : plain parameter ∈ (renewAbbreviation swappedStore swapped).parameters) :
    parameter ∈ ["'*q1", "'*q2"] := by
  have hnames : (renewAbbreviation swappedStore swapped).parameters.map
      text = ["'*q1", "'*q2"] := by
    decide +kernel
  exact hnames ▸ mem_map.mpr ⟨_, h, rfl⟩

theorem swapped_applied : swapped.Applied swappedEnv swappedStore
    ["'a", "'b"] { name := "swapped" } [.plain "''d", .plain "'c"]
    [.plain "''d", .list (.plain "''d")] where
  definition := rfl
  same := rfl
  parameters := rfl
  nodup := by decide
  noEquality := by simp [isEqualityName]
  body := by decide
  closed := by decide
  length := rfl
  settled := by
    have harguments : ∀ argument ∈ [plain "''d", .plain "'c"],
        argument.isUnfolded swappedEnv = true := by decide
    exact fun argument hargument => .of_bindings (harguments argument hargument) (by decide)
  resolved := rfl
  quantifierFree := by decide
  notAny := by simp [Ty.plain, Ty.list]
  noDomain := by simp [Ty.plain, Ty.list]
  unrestricted := fun _ _ _ _ => rfl
  fresh := by
    have hvars : ∀ type ∈ [plain "''d", .list (.plain "''d")],
        type.term.vars = ["''d"] := by decide
    intro parameter hparameter
    refine ⟨rfl, fun type htype hmem => ?_⟩
    rw [hvars type htype, mem_singleton] at hmem
    simpa [hmem] using swapped_renewed hparameter

theorem swappedStore_acyclic : swappedStore.Acyclic :=
  (Store.Ranked.of_bindings (fun name => if name = "'c" then 1 else 0) (by decide)).acyclic

/-- A variable with a smaller name than one that is made up is kept. -/
theorem Ty.instantiate_swapped : ∃ expanded,
      instantiate swappedEnv swappedStore (Elab.applyAbbreviation swapped
        [plain "''d", plain "'c"]) = .ok expanded ∧
      instantiate swappedEnv swappedStore (con { name := "swapped" }
        [plain "''d", plain "'c"]) = .ok expanded ∧
      "''d" ∈ expanded.term.vars := by
  obtain ⟨expanded, happlied, hiff⟩ :=
    instantiate_abbreviation_iff swappedStore_acyclic swapped_applied
  have hsmaller : ∀ parameter ∈ ["'*q1", "'*q2"], "''d" < parameter := by
    decide +kernel
  refine ⟨expanded, happlied, (hiff unfoldingRoom (by decide)).mpr ?_, ?_⟩
  · intro name domain free parameter hmem _
    obtain ⟨htype, hparameter⟩ := of_mem_zip hmem
    obtain ⟨rfl, -, -⟩ : name = "''d" ∧ domain = [] ∧ free = false := by
      simpa [plain, list] using htype
    exact hsmaller parameter (swapped_renewed hparameter)
  · cases happlied
    decide

/-- A variable with a larger name is replaced by the one that is made up. -/
theorem Ty.instantiate_swapped_ne : (instantiate swappedEnv {} (Elab.applyAbbreviation swapped
      [plain "'c", int])).toOption.map text = some "int * 'c" ∧
    (instantiate swappedEnv {} (con { name := "swapped" }
      [plain "'c", int])).toOption.map text = some "int * '*q1" := by
  decide +kernel

end Sml
