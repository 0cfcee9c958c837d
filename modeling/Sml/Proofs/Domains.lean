import Sml.Proofs.MergeSteps

/-!
# Overloaded variables stay within their domains

The domain of a variable is written at each place where it occurs, and the
store records a smaller one when variables are merged.  All occurrences of an
unbound variable agree on what the record leaves of their domains.  That only
gets smaller and never empty, so an overloaded variable ends up in another one
with part of its domain or in a member of it.  A member may have variables of
its own, which are bound like all others.
-/

namespace Sml

open List Store Ty

variable {type : Ty} {own : List Ty}

/-! ## Domains -/

namespace Ty

def Among (first second : List Ty) : Prop :=
  ∀ type ∈ first, ∃ member ∈ second, type.term = member.term

variable {first second third : List Ty}

theorem Among.refl (domain : List Ty) : Among domain domain := fun type htype => ⟨type, htype, rfl⟩

theorem Among.trans (h : Among first second) (hnext : Among second third) : Among first third := by
  intro type htype
  obtain ⟨member, hmember, heq⟩ := h type htype
  obtain ⟨other, hother, heq'⟩ := hnext member hmember
  exact ⟨other, hother, heq.trans heq'⟩

theorem Among.ne_nil (h : Among first second) (hne : first ≠ []) : second ≠ [] := by
  obtain ⟨type, htype⟩ := exists_mem_of_ne_nil first hne
  obtain ⟨member, hmember, _⟩ := h type htype
  exact ne_nil_of_mem hmember

theorem mem_of_mem_mergeDomain (h : type ∈ mergeDomain first second) :
    type ∈ first ∨ type ∈ second := by
  unfold mergeDomain at h
  split at h
  · exact .inr h
  · split at h
    · exact .inl h
    · exact .inl (mem_filter.mp h).1

theorem mergeDomain_among_left (hne : first ≠ []) : Among (mergeDomain first second) first := by
  intro type htype
  refine ⟨type, ?_, rfl⟩
  unfold mergeDomain at htype
  rw [if_neg (by simpa using hne)] at htype
  split at htype
  · exact htype
  · exact (mem_filter.mp htype).1

section AnyFree

variable (hfirst : ∀ type ∈ first, type.isAnyFree = true)
  (hsecond : ∀ type ∈ second, type.isAnyFree = true)
include hfirst hsecond

theorem isAnyFree_of_mem_mergeDomain : ∀ type ∈ mergeDomain first second, type.isAnyFree = true :=
  fun type htype => (mem_of_mem_mergeDomain htype).elim (hfirst type) (hsecond type)

theorem mergeDomain_among_right (hne : second ≠ []) : Among (mergeDomain first second) second := by
  intro type htype
  unfold mergeDomain at htype
  split at htype
  · exact ⟨type, htype, rfl⟩
  · rw [if_neg (by simpa using hne)] at htype
    obtain ⟨hmem, hany⟩ := mem_filter.mp htype
    obtain ⟨other, hother, hsame⟩ := any_eq_true.mp hany
    exact ⟨other, hother, ((same_iff (hsecond other hother) (hfirst type hmem)).mp hsame).symm⟩

theorem among_mergeDomain (h : first = [] ∨ Among second first) :
    Among second (mergeDomain first second) := by
  intro type htype
  unfold mergeDomain
  split
  · exact ⟨type, htype, rfl⟩
  · rename_i hne
    rw [if_neg (by simpa using ne_nil_of_mem htype)]
    obtain ⟨member, hmember, heq⟩ := h.resolve_left (by simpa using hne) type htype
    refine ⟨member, mem_filter.mpr ⟨hmember, ?_⟩, heq⟩
    exact any_eq_true.mpr ⟨type, htype,
      (same_iff (hsecond type htype) (hfirst member hmember)).mpr heq⟩

theorem mergeDomain_spec {domain : List Ty}
    (h : domain = mergeDomain first second ∨ domain = mergeDomain second first) :
    (∀ type ∈ domain, type.isAnyFree = true) ∧ (first ≠ [] → Among domain first) ∧
        (second ≠ [] → Among domain second) := by
  rcases h with rfl | rfl
  · exact ⟨isAnyFree_of_mem_mergeDomain hfirst hsecond, mergeDomain_among_left,
      mergeDomain_among_right hfirst hsecond⟩
  · exact ⟨isAnyFree_of_mem_mergeDomain hsecond hfirst,
      mergeDomain_among_right hsecond hfirst, mergeDomain_among_left⟩

end AnyFree

end Ty

/-! ## Occurrences -/

namespace Store

theorem domain?_join (store : Store) (survivor victim : String)
    (domain : List Ty) (free : Bool) (other : String) :
    (store.join survivor victim domain free).domain? other =
      if domain ≠ [] ∧ (survivor = other ∨ victim = other) then some domain
      else store.domain? other := by
  unfold join
  cases domain with
  | nil => simp [domain?, bind]
  | cons =>
    simp only [domain?, bind, constrain, isEmpty_cons, Bool.false_eq_true, if_false]
    rw [Table.get?_insert, Table.get?_insert]
    grind

variable (N : String → Prop) (D : String → List Ty) (store : Store)

/-- An unbound variable may occur with a domain: with one that is not smaller
than what is recorded, or with its own one.  That of a new equality variable is
in the type of the variable that it was made for. -/
structure Occurs (name : String) (domain : List Ty) : Prop where
  anyFree : ∀ type ∈ domain, type.isAnyFree = true
  recorded : ∀ {recorded}, store.domain? name = some recorded →
    domain = [] ∨ Ty.Among recorded domain
  assigned : store.domain? name = none → N name → domain = D name
  converted : ∀ {original}, store.domain? name = none → N original →
    isEqualityName original = false → name = equalityName original →
      ∃ free bound, store.get? original = some ⟨.var name domain free, bound⟩

/-- What a type leads to, by way of variables, is in the domain. -/
inductive Fits (domain : List Ty) : Ty → Prop
  | unbound {name : String} {own : List Ty} (free : Bool) :
      store.get? name = none → store.narrow name own ≠ [] →
      Ty.Among (store.narrow name own) domain →
      Fits domain (.var name own free)
  | bound {name : String} {binding : Binding} (own : List Ty) (free : Bool) :
      store.get? name = some binding → Fits domain binding.type →
      Fits domain (.var name own free)
  | member {type member : Ty} :
      (∀ name own free, type ≠ .var name own free) → member ∈ domain →
      type.term = member.term → Fits domain type

/-- What is recorded is not empty, and variables with a domain are in it. -/
structure Restricted : Prop where
  recorded : ∀ {name domain}, store.domain? name = some domain →
    domain ≠ [] ∧ (∀ type ∈ domain, type.isAnyFree = true) ∧ (N name ∨ ∃ original, N original ∧
        isEqualityName original = false ∧ store.isBound original = true ∧
          name = equalityName original)
  assigned : ∀ {name}, N name → store.get? name = none → store.Occurs N D name (D name)
  fits : ∀ {name}, N name → D name ≠ [] → ∀ free, store.Fits (D name) (.var name (D name) free)

end Store

/-- Types without abbreviations, in which each name has its own domain. -/
def domainVocabulary (env : TypeEnv) (N : String → Prop) (D : String → List Ty) : Vocabulary where
  anys := False
  heads head _ := ((env.definition? head).all fun info => !info.isAbbreviation) = true
  names := N
  occurs store name domain := store.get? name = none → store.Occurs N D name domain
  good := Store.Restricted N D

variable {other : String}

section Domains

variable {env : TypeEnv} {N : String → Prop} {D : String → List Ty} {store : Store}

namespace Store

variable (hgood : store.Restricted N D) {name : String} {first second : List Ty}
  (hfirst : store.Occurs N D name first)
include hgood hfirst

theorem Occurs.narrow_occurs : store.Occurs N D name (store.narrow name first) := by
  rw [narrow]
  cases hrecord : store.domain? name with
  | none => exact hfirst
  | some recorded =>
    have hfree := (hgood.recorded hrecord).2.1
    refine ⟨isAnyFree_of_mem_mergeDomain hfirst.anyFree hfree, ?_,
      by simp [hrecord], by simp [hrecord]⟩
    intro other hother
    cases hrecord.symm.trans hother
    exact .inr (among_mergeDomain hfirst.anyFree hfree (hfirst.recorded hrecord))

theorem Occurs.narrow_ne_nil (hne : first ≠ []) : store.narrow name first ≠ [] := by
  rw [narrow]
  cases hrecord : store.domain? name with
  | none => exact hne
  | some recorded =>
    obtain ⟨hrecorded, hfree, _⟩ := hgood.recorded hrecord
    exact (among_mergeDomain hfirst.anyFree hfree (hfirst.recorded hrecord)).ne_nil hrecorded

omit hfirst hgood in
theorem narrow_among (hne : first ≠ []) : Ty.Among (store.narrow name first) first := by
  rw [narrow]
  cases store.domain? name with
  | none => exact .refl first
  | some recorded => exact mergeDomain_among_left hne

theorem Occurs.narrow_among_narrow (hinUse : (domainVocabulary env N D).InUse store name)
    (hsecond : store.Occurs N D name second) :
    Ty.Among (store.narrow name first) (store.narrow name second) := by
  rw [narrow, narrow]
  cases hrecord : store.domain? name with
  | none =>
    have heq : first = second := by
      obtain hname | ⟨original, hname, hequality, _, heq⟩ := hinUse
      · rw [hfirst.assigned hrecord hname, hsecond.assigned hrecord hname]
      · obtain ⟨_, _, hbinding⟩ := hfirst.converted hrecord hname hequality heq
        obtain ⟨_, _, hother⟩ := hsecond.converted hrecord hname hequality heq
        cases hbinding.symm.trans hother
        rfl
    exact heq ▸ .refl first
  | some recorded =>
    obtain ⟨hrecorded, hfree, _⟩ := hgood.recorded hrecord
    exact (mergeDomain_among_right hfirst.anyFree hfree hrecorded).trans
      (among_mergeDomain hsecond.anyFree hfree (hsecond.recorded hrecord))

omit hgood in
theorem Occurs.fits_of_recorded {recorded domain : List Ty} (hname : store.get? name = none)
    (hrecord : store.domain? name = some recorded) (hne : recorded ≠ [])
    (hfree : ∀ type ∈ recorded, type.isAnyFree = true) (hamong : Ty.Among recorded domain)
    (free : Bool) : store.Fits domain (.var name first free) := by
  have hnarrow : store.narrow name first = mergeDomain first recorded := by
    rw [narrow, hrecord]
    rfl
  refine .unbound free hname ?_ ?_
  · rw [hnarrow]
    exact (among_mergeDomain hfirst.anyFree hfree (hfirst.recorded hrecord)).ne_nil hne
  · rw [hnarrow]
    exact (mergeDomain_among_right hfirst.anyFree hfree hne).trans hamong

end Store

/-! ## One step -/

namespace Vocabulary

variable (hsound : (domainVocabulary env N D).Sound env store)
  {name : String} {domain own : List Ty}
  (h : (domainVocabulary env N D).Open store name domain)
include hsound h

theorem Open.occurs : store.Occurs N D name domain := by
  obtain ⟨original, hused, rfl⟩ := h.used
  exact (hused.2 h.unbound).narrow_occurs hsound.good

theorem Open.among_narrow (hown : store.Occurs N D name own) :
    Ty.Among domain (store.narrow name own) := by
  obtain ⟨original, hused, rfl⟩ := h.used
  exact (hused.2 h.unbound).narrow_among_narrow hsound.good h.inUse hown

theorem Open.narrow_among (hown : store.Occurs N D name own) :
    Ty.Among (store.narrow name own) domain := by
  obtain ⟨original, hused, rfl⟩ := h.used
  exact hown.narrow_among_narrow hsound.good h.inUse (hused.2 h.unbound)

theorem Open.among_own (hown : store.Occurs N D name own) {recorded : List Ty}
    (hrecorded : domain ≠ [] → Ty.Among recorded domain) : own = [] ∨ Ty.Among recorded own := by
  by_cases hne : own = []
  · exact .inl hne
  · have hdomain := (h.narrow_among hsound hown).ne_nil (hown.narrow_ne_nil hsound.good hne)
    exact .inr (((hrecorded hdomain).trans (h.among_narrow hsound hown)).trans
      (Store.narrow_among hne))

theorem Open.fresh (hapart : (domainVocabulary env N D).Apart)
    (hequality : isEqualityName name = false) :
    store.get? (equalityName name) = none ∧ store.domain? (equalityName name) = none := by
  have hfresh := hapart.not_inUse_equalityName h.inUse h.unbound hequality
  refine ⟨hsound.get?_eq_none hfresh, ?_⟩
  cases hrecord : store.domain? (equalityName name) with
  | none => rfl
  | some recorded => exact (hfresh (hsound.good.recorded hrecord).2.2).elim

end Vocabulary

namespace Vocabulary.Step

variable (hapart : (domainVocabulary env N D).Apart)
  (hsound : (domainVocabulary env N D).Sound env store)
  {next : Store} {name : String} {type : Ty}
  (hstep : (domainVocabulary env N D).Step env store name type next)
include hsound hstep

omit hsound in
theorem get?_eq_none (hother : next.get? other = none) :
    store.get? other = none ∧ name ≠ other := by
  obtain ⟨_, hget⟩ := hstep.get?_eq
  rw [hget] at hother
  split at hother
  · cases hother
  · exact ⟨hother, ‹_›⟩

omit hsound in
theorem get?_of_bound {binding : Binding} (hother : store.get? other = some binding) :
    next.get? other = some binding := by
  obtain ⟨_, hget⟩ := hstep.get?_eq
  obtain ⟨_, hopen⟩ := hstep.opens
  rw [hget, if_neg]
  · exact hother
  · rintro rfl
    rw [hopen.unbound] at hother
    cases hother

variable {domain : List Ty}

theorem occurs_next (hused : (domainVocabulary env N D).Used store other domain)
    (hother : next.get? other = none) : next.Occurs N D other domain := by
  obtain ⟨hunbound, hne⟩ := hstep.get?_eq_none hother
  have hoccurs := hused.2 hunbound
  have hkept : next.domain? other = store.domain? other →
      next.Occurs N D other domain := by
    intro heq
    refine ⟨hoccurs.anyFree, heq ▸ hoccurs.recorded, heq ▸ hoccurs.assigned, ?_⟩
    intro original hrecord hname hequality hothername
    obtain ⟨free, bound, hbinding⟩ := hoccurs.converted (heq ▸ hrecord) hname hequality hothername
    exact ⟨free, bound, hstep.get?_of_bound hbinding⟩
  cases hstep with
  | convert | bind => exact hkept rfl
  | @join survivor victim kept lost merged free hkeeps hloses _ hmerged _ =>
    have hdomain := store.domain?_join survivor name merged free other
    split at hdomain
    · rename_i hrecord
      obtain rfl := hrecord.2.resolve_right hne
      refine ⟨hoccurs.anyFree, fun hrecord => ?_, by simp [hdomain], by simp [hdomain]⟩
      cases hdomain.symm.trans hrecord
      exact hkeeps.among_own hsound hoccurs (mergeDomain_spec
        (hkeeps.occurs hsound).anyFree (hloses.occurs hsound).anyFree
        hmerged).2.1
    · exact hkept hdomain

include hapart in
theorem occurs_new {free : Bool} (htype : type = .var other domain free)
    (hother : next.get? other = none) : next.Occurs N D other domain := by
  have hnext : ∀ {domain}, (domainVocabulary env N D).Used store other domain →
      next.Occurs N D other domain :=
    fun hused => occurs_next hsound hstep hused hother
  cases hstep with
  | bind _ _ _ hvar => exact (hvar _ _ _ htype).elim
  | convert _ hopen hequality =>
    cases htype
    obtain ⟨_, hrecord⟩ := hopen.fresh hsound hapart hequality
    refine ⟨(hopen.occurs hsound).anyFree, ?_, ?_, ?_⟩
    · intro recorded hrecorded
      cases hrecord.symm.trans hrecorded
    · intro _ hname
      exact (hapart.apart (hapart.names_of_inUse hopen.inUse hequality) hname).elim
    · intro original _ _ _ heq
      rw [← equalityName_injective heq, get?_bind, if_pos rfl]
      exact ⟨_, _, rfl⟩
  | @join survivor _ kept lost _ joined hkeeps hloses _ hmerged hempty =>
    cases htype
    by_cases hne : domain = []
    · refine hnext ⟨hkeeps.inUse, fun _ => ?_⟩
      rw [hne, ← (hempty hne).1]
      exact hkeeps.occurs hsound
    · have hrecord := store.domain?_join other name domain free other
      rw [if_pos ⟨hne, .inl rfl⟩] at hrecord
      refine ⟨(mergeDomain_spec (hkeeps.occurs hsound).anyFree
        (hloses.occurs hsound).anyFree hmerged).1, fun hrecorded => ?_,
        by simp [hrecord], by simp [hrecord]⟩
      cases hrecord.symm.trans hrecorded
      exact .inr (.refl _)

include hapart in
theorem fits_type (hown : store.Occurs N D name own) (hne : store.narrow name own ≠ [])
    (hamong : Ty.Among (store.narrow name own) domain) : next.Fits domain type := by
  have hnew : ∀ {other domain free}, type = .var other domain free →
      next.get? other = none → next.Occurs N D other domain :=
    occurs_new hapart hsound hstep
  cases hstep with
  | @join survivor _ kept lost merged free hkeeps hloses hlt hmerged hempty =>
    have hlost := (hloses.narrow_among hsound hown).ne_nil hne
    have hmergedNe : merged ≠ [] := fun hnil => hlost (hempty hnil).2
    obtain ⟨hfree, _, hwithin⟩ := mergeDomain_spec
      (hkeeps.occurs hsound).anyFree (hloses.occurs hsound).anyFree hmerged
    have hunbound : (store.join survivor name merged free).get? survivor = none := by
      rw [get?_join, if_neg (ne_of_gt hlt)]
      exact hkeeps.unbound
    refine (hnew rfl hunbound).fits_of_recorded hunbound ((store.domain?_join _ _ _ _ _).trans
        (if_pos ⟨hmergedNe, .inl rfl⟩)) hmergedNe hfree ?_ free
    exact ((hwithin hlost).trans (hloses.among_narrow hsound hown)).trans hamong
  | @convert _ shown free hopen hequality =>
    obtain ⟨hunbound, hrecord⟩ := hopen.fresh hsound hapart hequality
    have hname := hapart.names_of_inUse hopen.inUse hequality
    have hother : name ≠ equalityName name := fun heq => hapart.apart hname (heq ▸ hname)
    have hnarrow : Store.narrow (store.bind name (.var (equalityName name) shown free) free)
        (equalityName name) shown = shown := by
      change ((store.domain? (equalityName name)).map (mergeDomain shown)).getD shown = shown
      rw [hrecord]
      rfl
    refine .unbound free ?_ ?_ ?_
    · rw [get?_bind, if_neg hother]
      exact hunbound
    · rw [hnarrow]
      exact (hopen.narrow_among hsound hown).ne_nil hne
    · rw [hnarrow]
      exact (hopen.among_narrow hsound hown).trans hamong
  | bind free hopen hformed hvar _ _ hdomain =>
    obtain ⟨candidate, hcandidate, hsame⟩ := hdomain.resolve_left
      ((hopen.narrow_among hsound hown).ne_nil hne)
    rw [same_iff (Ty.MadeOf.isAnyFree hformed)
      ((hopen.occurs hsound).anyFree candidate hcandidate)] at hsame
    obtain ⟨member, hmember, heq⟩ :=
      (hopen.among_narrow hsound hown).trans hamong candidate hcandidate
    exact .member hvar hmember (hsame.trans heq)

theorem fits_unbound (hused : (domainVocabulary env N D).Used store other own)
    (hother : next.get? other = none) (hne : store.narrow other own ≠ [])
    (hamong : Ty.Among (store.narrow other own) domain) (free : Bool) :
    next.Fits domain (.var other own free) := by
  have hnext := occurs_next hsound hstep hused hother
  obtain ⟨hunbound, hname⟩ := hstep.get?_eq_none hother
  have hown := hused.2 hunbound
  have hkept : next.domain? other = store.domain? other →
      next.Fits domain (.var other own free) := by
    intro hrecord
    refine .unbound free hother ?_ ?_
    · rwa [Store.narrow, hrecord]
    · rwa [Store.narrow, hrecord]
  cases hstep with
  | bind | convert => exact hkept rfl
  | @join survivor _ kept lost merged joined hkeeps hloses _ hmerged =>
    have hdomain := store.domain?_join survivor name merged joined other
    split at hdomain
    · rename_i hnew
      obtain rfl := hnew.2.resolve_right hname
      obtain ⟨hfree, hwithin, _⟩ := mergeDomain_spec
        (hkeeps.occurs hsound).anyFree (hloses.occurs hsound).anyFree hmerged
      have hkeptNe := (hkeeps.narrow_among hsound hown).ne_nil hne
      exact hnext.fits_of_recorded hother hdomain hnew.1 hfree
        (((hwithin hkeptNe).trans (hkeeps.among_narrow hsound hown)).trans hamong) free
    · exact hkept hdomain

include hapart in
theorem fits_next {other : Ty} (hmade : (domainVocabulary env N D).Made store other)
    (h : store.Fits domain other) : next.Fits domain other := by
  induction h with
  | member hvar hmember hterm => exact .member hvar hmember hterm
  | bound own free hbinding _ ih =>
    exact .bound own free (hstep.get?_of_bound hbinding) (ih (hsound.formed hbinding).made)
  | @unbound other own free hother hne hamong =>
    cases hmade with
    | var _ hused =>
    obtain ⟨bound, hget⟩ := hstep.get?_eq
    by_cases heq : name = other
    · subst heq
      exact .bound own free ((hget name).trans (if_pos rfl))
        (fits_type hapart hsound hstep (hused.2 hother) hne hamong)
    · exact fits_unbound hsound hstep hused
        ((hget other).trans ((if_neg heq).trans hother)) hne hamong free

include hapart in
theorem restricted_next : next.Restricted N D where
  recorded := by
    have hbound : ∀ other, store.isBound other = true →
        next.isBound other = true := by
      intro other hother
      obtain ⟨binding, hbinding⟩ := Option.isSome_iff_exists.mp hother
      rw [isBound, hstep.get?_of_bound hbinding]
      rfl
    have hkept : ∀ {other domain}, store.domain? other = some domain →
        domain ≠ [] ∧ (∀ type ∈ domain, type.isAnyFree = true) ∧
          (domainVocabulary env N D).InUse next other := by
      intro other domain hrecord
      obtain ⟨hne, hfree, hinUse⟩ := hsound.good.recorded hrecord
      exact ⟨hne, hfree, InUse.mono (v := domainVocabulary env N D) hinUse hbound⟩
    intro other domain hrecord
    cases hstep with
    | bind | convert => exact hkept hrecord
    | join free hkeeps hloses _ hmerged =>
      rw [domain?_join] at hrecord
      split at hrecord
      · rename_i hnew
        cases hrecord
        refine ⟨hnew.1, (mergeDomain_spec (hkeeps.occurs hsound).anyFree
          (hloses.occurs hsound).anyFree hmerged).1, ?_⟩
        obtain rfl | rfl := hnew.2
        · exact hkeeps.inUse.mono hbound
        · exact hloses.inUse.mono hbound
      · exact hkept hrecord
  assigned hname hother := occurs_next hsound hstep ⟨.inl hname, hsound.good.assigned hname⟩ hother
  fits hname hne free := fits_next hapart hsound hstep
      (.var free ⟨.inl hname, hsound.good.assigned hname⟩)
      (hsound.good.fits hname hne free)

end Vocabulary.Step

/-! ## Merging -/

theorem domainVocabulary_lawful (hapart : (domainVocabulary env N D).Apart) :
    (domainVocabulary env N D).Lawful env where
  toApart := hapart
  hidden _ hhead := hhead
  unfolded hhead := hhead
  narrowed hsound hused hname _ := (hused.2 hname).narrow_occurs hsound.good
  step hsound hstep := ⟨hstep.restricted_next hapart hsound,
      fun hused hother => hstep.occurs_next hsound hused hother,
      fun htype hother => hstep.occurs_new hapart hsound htype hother⟩

section Resolves

variable (hsound : (domainVocabulary env N D).Sound env store)
include hsound

theorem isAnyFree_of_resolves {result : Ty}
    (htype : (domainVocabulary env N D).Formed env store type)
    (h : store.Resolves env type result) : result.isAnyFree = true := by
  have hmade : result.MadeOf False _ fun _ _ => True := h.madeOf htype.made
    (fun hbinding => (hsound.formed hbinding).made) (fun _ hhead => hhead)
    fun _ _ => trivial
  exact hmade.isAnyFree

theorem exists_meanings : ∃ types : String → Ty, Ty.Definite types ∧
    (∀ name, instantiate env store (.plain name) = .ok (types name)) ∧
    ∀ {σ}, store.Solves σ → ∀ name, (types name).term = σ name := by
  have hexists : ∀ name, ∃ result, store.Resolves env (.plain name) result ∧
      result.isAnyFree = true := by
    intro name
    cases hbinding : store.get? name with
    | none => exact ⟨_, .unbound [] false hbinding, rfl⟩
    | some binding =>
      obtain ⟨result, hresult⟩ := hsound.acyclic.exists_resolves
        (fun hhead => hhead.2) hsound.formed (hsound.formed hbinding)
      exact ⟨result, .bound [] false hbinding hresult,
        isAnyFree_of_resolves hsound (hsound.formed hbinding) hresult⟩
  choose types hresolves hfree using hexists
  exact ⟨types, hfree, fun name => (hresolves name).instantiate_eq,
    fun hσ name => (hresolves name).term_eq hσ⟩

theorem Store.Fits.exists_resolves {domain : List Ty} (h : store.Fits domain type)
    (htype : (domainVocabulary env N D).Formed env store type) :
    ∃ result, store.Resolves env type result ∧ ((∃ other own free, result = .var other own free ∧
        store.get? other = none ∧ own ≠ [] ∧
        (∀ type ∈ own, type.isAnyFree = true) ∧ Ty.Among own domain) ∨
      result.isAnyFree = true ∧ ∃ member ∈ domain, ∀ {σ}, store.Solves σ →
        result.term = member.term.subst σ) := by
  induction h with
  | unbound free hname hne hamong =>
    cases htype with
    | var _ hused =>
      exact ⟨_, .unbound _ free hname, .inl ⟨_, _, _, rfl, hname, hne,
        ((hused.2 hname).narrow_occurs hsound.good).anyFree, hamong⟩⟩
  | bound own free hbinding _ ih =>
    obtain ⟨result, hresult, hspec⟩ := ih (hsound.formed hbinding)
    exact ⟨result, .bound own free hbinding hresult, hspec⟩
  | member _ hmember hterm =>
    obtain ⟨result, hresult⟩ := hsound.acyclic.exists_resolves
      (fun hhead => hhead.2) hsound.formed htype
    exact ⟨result, hresult, .inr ⟨isAnyFree_of_resolves hsound htype hresult,
      _, hmember, fun hσ => hterm ▸ hresult.term_eq hσ⟩⟩

end Resolves

end Domains

/-- An unbound variable with part of a domain, or a member of it in which
variables stand for what they are bound to. -/
def Store.Keeps (env : TypeEnv) (store : Store) (domain : List Ty) (result : Ty) : Prop :=
  (∃ other own free, result = .var other own free ∧ store.get? other = none ∧ own ≠ [] ∧
    ∀ candidate ∈ own, ∃ member ∈ domain, candidate.same member = true) ∨
  ∃ types : String → Ty, (∀ other, instantiate env store (.plain other) = .ok (types other)) ∧
    ∃ member ∈ domain, result.same (member.replace types) = true

/-- Types without abbreviations and `any`, in which each name has its own
domain. -/
def Ty.Assigned (env : TypeEnv) (N : String → Prop) (D : String → List Ty) : Ty → Prop :=
  Ty.MadeOf False (fun head _ =>
      ((env.definition? head).all fun info => !info.isAbbreviation) = true)
    fun name domain => N name ∧ domain = D name

/-- An overloaded variable is kept in its domain. -/
theorem Store.Reached.keeps_domain {env : TypeEnv} {N : String → Prop} {D : String → List Ty}
    {store : Store} (hequality : ∀ {name}, N name → isEqualityName (equalityName name) = true)
    (hapart : ∀ {name}, N name → ¬ N (equalityName name))
    (hdomains : ∀ {name}, N name → ∀ type ∈ D name, type.isAnyFree = true)
    (hreached : store.Reached env (Ty.Assigned env N D)) {name : String} (hname : N name)
    (hdomain : D name ≠ []) (free : Bool) :
    ∃ result, instantiate env store (.var name (D name) free) = .ok result ∧
      store.Keeps env (D name) result := by
  have hsound : (domainVocabulary env N D).Sound env store := by
    refine (domainVocabulary_lawful ⟨hequality, hapart⟩).sound
      ⟨(nomatch ·), fun hname _ => ?_, fun hname hne free => ?_⟩
      (fun htype store hsound => ?_) hreached
    · exact ⟨hdomains hname, (nomatch ·), fun _ _ => rfl,
        fun _ horiginal _ heq => (hapart horiginal (heq ▸ hname)).elim⟩
    · exact .unbound free rfl hne (.refl _)
    · refine htype.mono (fun hhead => hhead) ?_
      rintro name domain ⟨hname, rfl⟩
      exact ⟨.inl hname, hsound.good.assigned hname⟩
  obtain ⟨result, hresult, hspec⟩ := Store.Fits.exists_resolves hsound
    (hsound.good.fits hname hdomain free)
    (.var free ⟨.inl hname, hsound.good.assigned hname⟩)
  refine ⟨result, hresult.instantiate_eq, ?_⟩
  rcases hspec with ⟨other, own, free, rfl, hother, hne, hfree, hamong⟩ |
    ⟨hfree, member, hmember, hterm⟩
  · refine .inl ⟨other, own, free, rfl, hother, hne, fun candidate hcandidate => ?_⟩
    obtain ⟨member, hmember, heq⟩ := hamong candidate hcandidate
    exact ⟨member, hmember, (same_iff (hfree candidate hcandidate)
      (hdomains hname member hmember)).mpr heq⟩
  · obtain ⟨types, hdefinite, htypes, hsolved⟩ := exists_meanings hsound
    obtain ⟨σ, hσ⟩ := hsound.acyclic.exists_solves
    refine .inr ⟨types, htypes, member, hmember, ?_⟩
    rw [same_iff hfree (isAnyFree_replace hdefinite
      (hdomains hname member hmember)), term_replace, hterm hσ,
      funext (hsolved hσ)]

/-! ## Examples -/

def overloadEnv : TypeEnv where
  type? _ _ := none
  value? _ _ := none
  assumed? _ _ := none

/-- One variable gives way to another without a domain, and one is found to be
real. -/
def overloadStore : Store := (Store.merged overloadEnv {} (.var "'n" [.int, .real] false)
    (.plain "'m")).merged overloadEnv (.var "'k" [.int, .real] false) .real

theorem Store.Reached.keeps_domain_number :
    overloadStore.Reached overloadEnv (Ty.Assigned overloadEnv (· ∈ ["'k", "'m", "'n"])
        fun name => if name = "'m" then [] else [.int, .real]) ∧
      ∀ name ∈ ["'k", "'n"], ∃ result, instantiate overloadEnv overloadStore
        (.var name [.int, .real] false) = .ok result ∧
          overloadStore.Keeps overloadEnv [.int, .real] result := by
  have hreached : overloadStore.Reached overloadEnv (Ty.Assigned overloadEnv
      (· ∈ ["'k", "'m", "'n"])
      fun name => if name = "'m" then [] else [.int, .real]) :=
    (Store.Reached.empty.merged (.var _ ⟨by decide, rfl⟩)
      (.var _ ⟨by decide, rfl⟩)).merged (.var _ ⟨by decide, rfl⟩)
        (.con rfl (by simp))
  refine ⟨hreached, fun name hname => ?_⟩
  obtain ⟨hmem, hne⟩ := (by decide : ∀ name ∈ ["'k", "'n"],
    name ∈ ["'k", "'m", "'n"] ∧ name ≠ "'m") name hname
  have hkeeps := hreached.keeps_domain
    (fun hname => (by decide +kernel : ∀ name ∈ ["'k", "'m", "'n"],
      isEqualityName (equalityName name) = true) _ hname)
    (fun hname => (by decide : ∀ name ∈ ["'k", "'m", "'n"],
      equalityName name ∉ ["'k", "'m", "'n"]) _ hname)
    (fun hname => (by decide : ∀ name ∈ ["'k", "'m", "'n"],
      ∀ type ∈ if name = "'m" then [] else [int, .real], type.isAnyFree = true) _ hname)
    hmem (by simp [hne]) false
  simpa only [if_neg hne] using hkeeps

/-- The member has a variable, which is found to be an integer. -/
def memberStore : Store := (Store.merged overloadEnv {} (.var "'n" [.list (.plain "'b")] false)
    (.list (.plain "'b"))).merged overloadEnv (.plain "'b") .int

theorem Store.Reached.keeps_domain_member : memberStore.Reached overloadEnv (Ty.Assigned overloadEnv
        (· ∈ ["'b", "'n"])
        fun name => if name = "'b" then [] else [.list (.plain "'b")]) ∧
      (instantiate overloadEnv memberStore (.var "'n" [.list (.plain "'b")] false)).toOption.map
          (fun result => (result.text, result.same (.list (.plain "'b")))) =
        some ("int list", false) := by
  refine ⟨?_, by decide +kernel⟩
  have hvariable : Ty.Assigned overloadEnv (· ∈ ["'b", "'n"])
      (fun name => if name = "'b" then [] else [.list (.plain "'b")])
      (.plain "'b") := .var _ ⟨by decide, rfl⟩
  exact (Store.Reached.empty.merged (.var _ ⟨by decide, rfl⟩)
    (.con rfl (List.forall_mem_singleton.mpr hvariable))).merged hvariable (.con rfl (by simp))

end Sml
