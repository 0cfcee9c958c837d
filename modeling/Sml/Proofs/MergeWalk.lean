import Sml.Proofs.Resolution

/-!
# Instantiation and merging step by step

Instantiation and merging take types apart, put types together and pass a
store along.  What holds of the parts and of the store after each step holds
in the end, and if all that is looked up is the same in two environments, the
second finds what the first finds.
-/

namespace Sml

open List Ty

variable {ε α : Type}

/-! ## Results that stay -/

def Yields {ε α : Type} (Q : α → Prop) (result : Except ε α) : Prop :=
  ∀ value, result = .ok value → Q value

/-- What the first computation finds the second finds as well, and it is of
some kind. -/
def Follows {ε α : Type} (Q : α → Prop) (first second : Except ε α) : Prop :=
  ∀ value, first = .ok value → second = .ok value ∧ Q value

theorem Yields.ok {Q : α → Prop} {value : α} (h : Q value) : Yields Q (.ok value : Except ε α) := by
  rintro _ ⟨⟩
  exact h

theorem Yields.error {Q : α → Prop} (fault : ε) : Yields Q (.error fault) := by
  rintro _ ⟨⟩

theorem Yields.bind {β : Type} {Q : α → Prop} {R : β → Prop} {result : Except ε α}
    {next : α → Except ε β} (h : Yields Q result)
    (hnext : ∀ value, Q value → Yields R (next value)) : Yields R (result >>= next) := by
  cases result with
  | error fault => exact error fault
  | ok value => exact hnext value (h value rfl)

namespace Follows

variable {ε ε' α β : Type} {Q : α → Prop} {R : β → Prop} {first second : Except ε α}

theorem same (h : Yields Q first) : Follows Q first first :=
  fun value hvalue => ⟨hvalue, h value hvalue⟩

theorem yields (h : Follows Q first second) : Yields Q first :=
  fun value hvalue => (h value hvalue).2

theorem ok {value : α} (h : Q value) : Follows Q (.ok value : Except ε α) (.ok value) :=
  same (.ok h)

theorem error (fault : ε) : Follows Q (.error fault) second := by
  rintro _ ⟨⟩

theorem mono {Q' : α → Prop} (h : Follows Q first second)
    (hQ : ∀ value, Q value → Q' value) : Follows Q' first second :=
  fun value hvalue => (h value hvalue).imp_right (hQ value)

theorem bind {next next' : α → Except ε β} (h : Follows Q first second)
    (hnext : ∀ value, Q value → Follows R (next value) (next' value)) :
    Follows R (first >>= next) (second >>= next') := by
  intro result hresult
  obtain ⟨value, hvalue, hlast⟩ := bind_eq_ok hresult
  obtain ⟨hsecond, hQ⟩ := h value hvalue
  rw [hsecond]
  exact hnext value hQ result hlast

theorem mapError (h : Follows Q first second) (f : ε → ε') :
    Follows Q (first.mapError f) (second.mapError f) := by
  cases first with
  | error fault => exact error _
  | ok value =>
    obtain ⟨hsecond, hQ⟩ := h value rfl
    rw [hsecond]
    exact ok hQ

theorem mapM {f g : α → Except ε β} {items : List α}
    (h : ∀ item ∈ items, Follows R (f item) (g item)) :
    Follows (fun values => values.length = items.length ∧
      ∀ value ∈ values, R value) (items.mapM f) (items.mapM g) := by
  induction items with
  | nil => exact ok (by simp)
  | cons item items ih =>
    rw [mapM_cons, mapM_cons]
    refine (h item (by simp)).bind fun value hvalue => ?_
    refine (ih fun item hitem => h item (by simp [hitem])).bind ?_
    intro values hvalues
    exact ok (by simpa [hvalue] using hvalues)

theorem foldlM {f g : β → α → Except ε β} {items : List α} (h : ∀ item ∈ items, ∀ value, R value →
      Follows R (f value item) (g value item)) {start : β} (hstart : R start) :
    Follows R (items.foldlM f start) (items.foldlM g start) := by
  induction items generalizing start with
  | nil => exact ok hstart
  | cons item items ih =>
    rw [foldlM_cons, foldlM_cons]
    refine (h item (by simp) start hstart).bind fun value hvalue => ?_
    exact ih (fun item hitem => h item (by simp [hitem])) hvalue

end Follows

/-! ## Kinds of types -/

/-- Kinds of stores and of types, as they are given, as instantiation shows
them and as merging puts them together, and what may happen to a store. -/
structure MergeKind where
  store : Store → Prop
  type : Store → Ty → Prop
  shown : Store → Ty → Prop
  made : Store → Ty → Prop
  grows : Store → Store → Prop

namespace MergeKind

variable (kind : MergeKind)

structure Merged (store : Store) (result : Ty × Store) : Prop where
  made : kind.made result.2 result.1
  grown : kind.grows store result.2

/-- What is known of a type is known of its parts, and later still. -/
structure Lawful : Prop where
  refl : ∀ {store}, kind.store store → kind.grows store store
  trans : ∀ {store middle next}, kind.grows store middle →
    kind.grows middle next → kind.grows store next
  sound : ∀ {store next}, kind.grows store next → kind.store next
  later : ∀ {store next type}, kind.grows store next → kind.type store type → kind.type next type
  lasts : ∀ {store next type}, kind.grows store next → kind.made store type → kind.made next type
  given : ∀ {store type}, kind.store store → kind.shown store type → kind.type store type
  kept : ∀ {store type}, kind.type store type → kind.made store type
  body : ∀ {store name domain free type},
    kind.type store (.bind name domain free type) → kind.type store type
  simplify : ∀ {store type}, kind.type store type → kind.type store type.simplify
  fields : ∀ {store fields complete}, kind.type store (.record fields complete) →
      ∀ field ∈ fields, kind.type store field.2
  arrow : ∀ {store parameter result}, kind.type store (.arrow parameter result) →
      kind.type store parameter ∧ kind.type store result
  arguments : ∀ {store head arguments}, kind.type store (.con head arguments) →
      ∀ argument ∈ arguments, kind.type store argument
  makeRecord : ∀ {store fields complete others}, kind.type store (.record fields complete) →
      (∀ field ∈ others, kind.made store field.2) →
        ∀ more, kind.made store (.record others (complete || more))
  makeArrow : ∀ {store parameter result}, kind.made store parameter →
    kind.made store result → kind.made store (.arrow parameter result)
  makeCon : ∀ {store head arguments others}, kind.type store (.con head arguments) →
      others.length = arguments.length →
      (∀ argument ∈ others, kind.made store argument) →
        ∀ hidden, kind.made store (.con { head with hidden } others)
  join : ∀ {store} {this that : Ty.Binder}, kind.store store →
    kind.shown store (.var this.name this.domain this.free) →
    kind.shown store (.var that.name that.domain that.free) →
      Yields (kind.Merged store) (mergeVariables store this that)
  /-- A record that may grow is bound anew. -/
  rebind : ∀ {store name domain free type result},
    kind.type store (.var name domain free) → kind.shown store type →
    type.isResolved = false → kind.Merged store result → ∀ free, kind.Merged store (result.1,
        result.2.bind (result.2.chainEnd name) result.1 free)

def Merges (merge merge' : Store → Ty → Ty → Merging) : Prop :=
  ∀ {store left right}, kind.store store → kind.type store left → kind.type store right →
      Follows (kind.Merged store) (merge store left right) (merge' store left right)

def Converts (convert convert' : Store → Ty → Except TypeFault (Ty × Store)) :
    Prop :=
  ∀ {store type}, kind.store store → kind.type store type →
    Follows (kind.Merged store) (convert store type) (convert' store type)

/-- To a depth, what is found in the first environment is found in the second
and is of the kind. -/
structure Kept (env other : TypeEnv) (depth : Nat) : Prop where
  instantiate : ∀ {store type} (seen : List String), kind.store store →
    kind.type store type → Follows (kind.shown store) (instantiateTo depth env seen store type)
      (instantiateTo depth other seen store type)
  merge : kind.Merges (mergeTo depth env) (mergeTo depth other)
  bind : ∀ {store} {binder : Ty.Binder} {type}, kind.store store →
    kind.shown store (.var binder.name binder.domain binder.free) →
    kind.shown store type → (∀ name domain free, type ≠ .var name domain free) →
      Follows (kind.Merged store) (bindTo depth env store binder type)
        (bindTo depth other store binder type)

/-! ## Lists and fields -/

section Parts

variable {kind} (hlaw : kind.Lawful) {merge merge' : Store → Ty → Ty → Merging}
  (hmerge : kind.Merges merge merge') {store : Store}
  (hstore : kind.store store)
include hlaw hstore

theorem merged_self {type : Ty} (htype : kind.type store type) : kind.Merged store (type, store) :=
  ⟨hlaw.kept htype, hlaw.refl hstore⟩

theorem follows_threadStore {convert convert' : Store → Ty → Except TypeFault (Ty × Store)}
    (hconvert : kind.Converts convert convert') {types : List Ty}
    (htypes : ∀ type ∈ types, kind.type store type) :
    Follows (fun result : List Ty × Store =>
        result.1.length = types.length ∧
        (∀ type ∈ result.1, kind.made result.2 type) ∧ kind.grows store result.2)
      (threadStore convert store types)
      (threadStore convert' store types) := by
  induction types generalizing store with
  | nil => exact .ok ⟨rfl, by simp, hlaw.refl hstore⟩
  | cons type types ih =>
    obtain ⟨htype, htypes⟩ := forall_mem_cons.mp htypes
    refine (hconvert hstore htype).bind fun first hfirst => ?_
    refine (ih (hlaw.sound hfirst.grown) fun type htype =>
      hlaw.later hfirst.grown (htypes type htype)).bind ?_
    rintro others ⟨hlength, hothers, hgrown⟩
    exact .ok ⟨congrArg (· + 1) hlength,
      forall_mem_cons.mpr ⟨hlaw.lasts hgrown hfirst.made, hothers⟩,
      hlaw.trans hfirst.grown hgrown⟩

include hmerge

theorem follows_mergePairs {pairs : List (Ty × Ty)}
    (h : ∀ pair ∈ pairs, kind.type store pair.1 ∧ kind.type store pair.2) :
    Follows (fun result : List Ty × Store =>
        result.1.length = pairs.length ∧
        (∀ type ∈ result.1, kind.made result.2 type) ∧ kind.grows store result.2)
      (mergePairs merge store pairs) (mergePairs merge' store pairs) := by
  induction pairs generalizing store with
  | nil => exact .ok ⟨rfl, by simp, hlaw.refl hstore⟩
  | cons pair pairs ih =>
    obtain ⟨hpair, hpairs⟩ := forall_mem_cons.mp h
    refine (hmerge hstore hpair.1 hpair.2).bind fun first hfirst => ?_
    refine (ih (hlaw.sound hfirst.grown) fun pair hpair =>
      (hpairs pair hpair).imp (hlaw.later hfirst.grown) (hlaw.later hfirst.grown)).bind ?_
    rintro others ⟨hlength, hothers, hgrown⟩
    exact .ok ⟨congrArg (· + 1) hlength,
      forall_mem_cons.mpr ⟨hlaw.lasts hgrown hfirst.made, hothers⟩,
      hlaw.trans hfirst.grown hgrown⟩

theorem follows_mergeCons {this : TyCon} (that : TyCon) {thisArguments thatArguments : List Ty}
    (hthis : kind.type store (.con this thisArguments))
    (hthat : ∀ type ∈ thatArguments, kind.type store type) :
    Follows (kind.Merged store) (mergeCons merge store this thisArguments that thatArguments)
      (mergeCons merge' store this thisArguments that thatArguments) := by
  unfold mergeCons
  split
  · rename_i hsame
    rw [Bool.and_eq_true, beq_iff_eq] at hsame
    refine (follows_mergePairs hlaw hmerge hstore fun pair hpair => ?_).bind ?_
    · have hmem := of_mem_zip hpair
      exact ⟨hlaw.arguments hthis _ hmem.1, hthat _ hmem.2⟩
    · rintro ⟨results, next⟩ ⟨hlength, hresults, hgrown⟩
      rw [length_zip, ← hsame.2, Nat.min_self] at hlength
      exact .ok ⟨hlaw.makeCon (hlaw.later hgrown hthis) hlength hresults _, hgrown⟩
  · exact .error _

theorem follows_mergeFields {instantiate instantiate' : Store → Ty → Except TypeFault Ty}
    (hinstantiate : ∀ {store type}, kind.store store → kind.type store type →
      Follows (kind.shown store) (instantiate store type) (instantiate' store type))
    {this that : List (String × Ty)} {thisComplete : Bool}
    (hthis : kind.type store (.record this thisComplete))
    (hthat : ∀ field ∈ that, kind.type store field.2) (thatComplete : Bool) :
    Follows (kind.Merged store) (mergeFields merge instantiate store this thisComplete that
        thatComplete)
      (mergeFields merge' instantiate' store this thisComplete that thatComplete) := by
  let Found (found : List (String × Ty) × Store) : Prop :=
    (∀ field ∈ found.1, kind.made found.2 field.2) ∧ kind.grows store found.2
  have hinsert : ∀ {found : List (String × Ty)} {label : String} {type : Ty}
      {next : Store}, (∀ field ∈ found, kind.made next field.2) →
      kind.made next type →
      ∀ field ∈ Table.insert found label type, kind.made next field.2 := by
    intro found label type next hfound htype field hfield
    rcases Table.mem_of_mem_insert hfield with rfl | hfield
    · exact htype
    · exact hfound field hfield
  have hadd : ∀ disagree complete found field, Found found → kind.type store field.2 →
      Follows Found (addField instantiate disagree complete found field)
        (addField instantiate' disagree complete found field) := by
    intro disagree complete found field hfound hfield
    have hsound := hlaw.sound hfound.2
    unfold addField
    split
    · exact .error _
    · cases htype : instantiate found.2 field.2 with
      | error fault => exact .error _
      | ok type =>
        obtain ⟨hother, hshown⟩ := hinstantiate hsound (hlaw.later hfound.2 hfield) type htype
        rw [hother]
        exact .ok ⟨hinsert hfound.1 (hlaw.kept (hlaw.given hsound hshown)), hfound.2⟩
  unfold mergeFields
  refine (Follows.foldlM (R := Found) (fun field hfield found hfound => ?_)
    ⟨by simp, hlaw.refl hstore⟩).bind fun found hfound => ?_
  · split
    · rename_i own hown
      have hown := hlaw.fields hthis _ (Table.mem_of_get? hown)
      refine (hmerge (hlaw.sound hfound.2) (hlaw.later hfound.2 hown)
        (hlaw.later hfound.2 (hthat field hfield))).bind ?_
      intro merged hmerged
      exact .ok ⟨hinsert (fun field hfield => hlaw.lasts hmerged.grown
        (hfound.1 field hfield)) hmerged.made,
        hlaw.trans hfound.2 hmerged.grown⟩
    · exact hadd _ _ _ _ hfound (hthat field hfield)
  · refine (Follows.foldlM (R := Found) (fun field hfield found hfound => ?_)
      hfound).bind fun found hfound => ?_
    · split
      · exact .ok hfound
      · exact hadd _ _ _ _ hfound (hlaw.fields hthis field hfield)
    · exact .ok ⟨hlaw.makeRecord (hlaw.later hfound.2 hthis) hfound.1 _, hfound.2⟩

end Parts

/-! ## Merging -/

variable {kind} {env other : TypeEnv} {depth : Nat}

theorem Kept.merges_mergeTo (hlaw : kind.Lawful) (h : kind.Kept env other depth) :
    kind.Merges (mergeTo (depth + 1) env) (mergeTo (depth + 1) other) := by
  intro store this that hstore hthis hthat
  have hinstantiate : ∀ {type : Ty}, kind.type store type → Follows (kind.shown store)
        ((instantiateTo depth env [] store type).mapError .fault)
        ((instantiateTo depth other [] store type).mapError MergeFault.fault) :=
    fun htype => (h.instantiate [] hstore htype).mapError _
  have hgiven : ∀ {type : Ty}, kind.shown store type → kind.type store type :=
    fun htype => hlaw.given hstore htype
  have hself : ∀ {type : Ty}, kind.type store type →
      kind.Merged store (type, store) := merged_self hlaw hstore
  unfold mergeTo
  split
  · exact .ok (hself hthat)
  · exact h.merge hstore (hlaw.body hthis) hthat
  · exact h.merge hstore (hlaw.simplify hthis) hthat
  · exact .ok (hself hthis)
  · refine (hinstantiate hthis).bind fun resolved hresolved => ?_
    split
    · -- The variable is not bound.
      refine (hinstantiate hthat).bind fun found hfound => ?_
      split
      · exact .same (hlaw.join hstore hresolved hfound)
      · exact .ok (hself (hgiven hresolved))
      · rename_i hvar _
        exact h.bind hstore hresolved hfound hvar
    · refine (h.merge hstore (hgiven hresolved) hthat).bind ?_
      intro merged hmerged
      dsimp only
      split
      · exact .ok hmerged
      · rename_i hgrows
        exact .ok (hlaw.rebind hthis hresolved (Bool.eq_false_iff.mpr hgrows) hmerged _)
  · exact h.merge hstore hthat hthis
  · refine (hinstantiate hthat).bind fun found hfound => ?_
    split
    · split
      · exact h.merge hstore (hgiven hfound) hthis
      · exact follows_mergeFields hlaw h.merge hstore (h.instantiate [])
          hthis (hlaw.fields (hgiven hfound)) _
    · exact h.merge hstore (hgiven hfound) hthis
    · exact h.merge hstore (hgiven hfound) hthis
    · exact .error _
  · obtain ⟨hparameter, hresult⟩ := hlaw.arrow hthis
    refine (hinstantiate hthat).bind fun found hfound => ?_
    split
    · obtain ⟨hparameter', hresult'⟩ := hlaw.arrow (hgiven hfound)
      refine (h.merge hstore hparameter hparameter').bind fun first hfirst => ?_
      refine (h.merge (hlaw.sound hfirst.grown) (hlaw.later hfirst.grown hresult)
        (hlaw.later hfirst.grown hresult')).bind fun second hsecond => ?_
      exact .ok ⟨hlaw.makeArrow (hlaw.lasts hsecond.grown hfirst.made)
        hsecond.made, hlaw.trans hfirst.grown hsecond.grown⟩
    · exact h.merge hstore (hgiven hfound) hthis
    · exact h.merge hstore (hgiven hfound) hthis
    · exact .error _
  · refine (hinstantiate hthis).bind fun resolved hresolved => ?_
    split
    · refine (hinstantiate hthat).bind fun found hfound => ?_
      split
      · exact follows_mergeCons hlaw h.merge hstore _ (hgiven hresolved)
          (hlaw.arguments (hgiven hfound))
      · exact h.merge hstore (hgiven hfound) (hgiven hresolved)
      · exact h.merge hstore (hgiven hfound) (hgiven hresolved)
      · exact .error _
    · exact h.merge hstore (hgiven hresolved) hthat

/-! ## Instantiation and equality variables -/

variable (kind env other) in
/-- What is looked up is the same in both environments and of the kind, and so
is what is put together from parts of the kind. -/
structure Respects : Prop extends kind.Lawful where
  definition : ∀ {store head arguments}, kind.type store (.con head arguments) →
      other.definition? head = env.definition? head
  abbreviation : ∀ {store head arguments info abbreviation}, kind.type store (.con head arguments) →
    env.definition? head = some info →
    info.abbreviation? = some abbreviation →
      (∀ type ∈ (renewAbbreviation store abbreviation).parameters, kind.type store type) ∧
        kind.type store (renewAbbreviation store abbreviation).body
  typed : ∀ {store type}, kind.made store type → kind.type store type
  bound : ∀ {store name binding}, kind.store store →
    store.get? name = some binding → kind.type store binding.type
  earlier : ∀ {store next type}, kind.grows store next →
    kind.shown next type → kind.shown store type
  showAny : ∀ {store}, kind.shown store .any
  showVar : ∀ {store name domain free}, kind.store store →
    kind.type store (.var name domain free) → store.get? name = none →
      kind.shown store (.var name (store.narrow name domain) free)
  showBind : ∀ {store name domain free body type},
    kind.type store (.bind name domain free body) → kind.shown store type →
      kind.shown store (.bind name domain free type)
  showRecord : ∀ {store fields complete others}, kind.type store (.record fields complete) →
      (∀ field ∈ others, kind.shown store field.2) → kind.shown store (.record others complete)
  showArrow : ∀ {store parameter result}, kind.shown store parameter →
    kind.shown store result → kind.shown store (.arrow parameter result)
  showCon : ∀ {store head arguments others}, kind.type store (.con head arguments) →
    others.length = arguments.length →
    (∀ argument ∈ others, kind.shown store argument) →
    ((env.definition? head).all fun info => !info.isAbbreviation) = true →
      ∀ hidden, kind.shown store (.con { head with hidden } others)
  makeBind : ∀ {store name domain free body type},
    kind.type store (.bind name domain free body) → kind.made store type →
      kind.made store (.bind name domain free type)
  convert : ∀ {store name domain free}, kind.store store →
    kind.type store (.var name domain free) → store.get? name = none →
      kind.Merged store (.var (equalityName name) domain free,
        store.bind name (.var (equalityName name) domain free) free)
  replace : ∀ {store name domain free result},
    kind.type store (.var name domain free) → kind.Merged store result →
      ∀ free, kind.Merged store (result.1, result.2.bind name result.1 free)

section Step

variable (hlaw : kind.Respects env other) (h : kind.Kept env other depth)
  {store : Store} (hstore : kind.store store)
include hlaw h hstore

theorem Kept.follows_instantiateTo (seen : List String) {type : Ty} (htype : kind.type store type) :
    Follows (kind.shown store) (instantiateTo (depth + 1) env seen store type)
      (instantiateTo (depth + 1) other seen store type) := by
  cases type with
  | any => exact .ok hlaw.showAny
  | var name domain free =>
    simp only [instantiateTo]
    split
    · rename_i hname
      have hshown := hlaw.showVar hstore htype hname
      rw [Store.narrow] at hshown
      split
      · rename_i hrecorded
        rw [hrecorded] at hshown
        exact .ok hshown
      · rename_i hrecorded
        rw [hrecorded] at hshown
        exact .ok hshown
    · rename_i hbinding
      split
      · exact .error _
      · exact h.instantiate _ hstore (hlaw.bound hstore hbinding)
  | bind name domain free body =>
    refine (h.instantiate _ hstore (hlaw.body htype)).bind ?_
    exact fun body hbody => .ok (hlaw.showBind htype hbody)
  | record fields complete =>
    refine (Follows.mapM (R := fun field : String × Ty =>
      kind.shown store field.2) fun field hfield => ?_).bind
        fun fields hfields => .ok (hlaw.showRecord htype hfields.2)
    exact (h.instantiate _ hstore (hlaw.fields htype field hfield)).bind fun type htype => .ok htype
  | arrow parameter result =>
    obtain ⟨hparameter, hresult⟩ := hlaw.arrow htype
    refine (h.instantiate _ hstore hparameter).bind fun _ hparameter => ?_
    refine (h.instantiate _ hstore hresult).bind fun _ hresult => ?_
    exact .ok (hlaw.showArrow hparameter hresult)
  | tuple elements =>
    exact h.instantiate _ hstore (hlaw.simplify htype)
  | con head arguments =>
    refine (Follows.mapM fun argument hargument => h.instantiate seen hstore
      (hlaw.arguments htype argument hargument)).bind ?_
    rintro results ⟨hlength, hresults⟩
    have hshown := hlaw.showCon htype hlength hresults
    rw [hlaw.definition htype]
    cases hinfo : env.definition? head with
    | none => exact .ok (hshown (by simp [hinfo]) head.hidden)
    | some info =>
      dsimp only
      split
      · -- The body is instantiated where the parameters are bound.
        rename_i abbreviation habbreviation
        obtain ⟨hparameters, hbody⟩ := hlaw.abbreviation htype hinfo habbreviation
        have hcon := hlaw.typed (hlaw.makeCon htype hlength (fun argument hargument => hlaw.kept
            (hlaw.given hstore (hresults argument hargument))) head.hidden)
        split
        · rename_i heq
          obtain ⟨hother, hmerged⟩ := follows_mergeCons hlaw.toLawful
            h.merge hstore _ hcon hparameters _ heq
          rw [hother]
          exact (h.instantiate _ (hlaw.sound hmerged.grown)
            (hlaw.later hmerged.grown hbody)).mono fun _ hresult =>
              hlaw.earlier hmerged.grown hresult
        · exact .error _
        · exact .error _
      · rename_i hplain
        split
        · exact .error _
        · exact .ok (hshown (by simp [hinfo, TypeInfo.isAbbreviation, hplain]) _)

variable (hconvert : kind.Converts (makeEqTo depth env) (makeEqTo depth other))
include hconvert

theorem Kept.follows_makeEqTo {type : Ty} (htype : kind.type store type) :
    Follows (kind.Merged store) (makeEqTo (depth + 1) env store type)
      (makeEqTo (depth + 1) other store type) := by
  have hself := merged_self hlaw.toLawful hstore htype
  cases type with
  | any | arrow => exact .ok hself
  | var name domain free =>
    simp only [makeEqTo]
    split
    · exact .ok hself
    · split
      · rename_i hbinding
        refine (hconvert hstore (hlaw.bound hstore hbinding)).bind ?_
        exact fun result hresult => .ok (hlaw.replace htype hresult _)
      · exact .ok (hlaw.convert hstore htype ‹_›)
  | bind name domain free body =>
    refine (hconvert hstore (hlaw.body htype)).bind fun result hresult => ?_
    exact .ok ⟨hlaw.makeBind (hlaw.later hresult.grown htype) hresult.made, hresult.grown⟩
  | record fields complete =>
    refine (follows_threadStore hlaw.toLawful hstore hconvert
      (forall_mem_map.mpr (hlaw.fields htype))).bind ?_
    rintro result ⟨_, hresults, hgrown⟩
    refine .ok ⟨?_, hgrown⟩
    rw [← Bool.or_false complete]
    exact hlaw.makeRecord (hlaw.later hgrown htype)
      (fun field hfield => hresults _ (of_mem_zip hfield).2) false
  | tuple elements =>
    exact hconvert hstore (hlaw.simplify htype)
  | con head arguments =>
    simp only [makeEqTo]
    refine (h.instantiate [] hstore htype).bind fun expanded hexpanded => ?_
    have hexpanded := hlaw.given hstore hexpanded
    rw [hlaw.definition htype]
    split
    · split
      · simp only [pure_bind]
        split
        · exact .ok hself
        · refine (follows_threadStore hlaw.toLawful hstore hconvert (hlaw.arguments htype)).bind ?_
          rintro result ⟨hlength, hresults, hgrown⟩
          exact .ok ⟨hlaw.makeCon (hlaw.later hgrown htype) hlength hresults _, hgrown⟩
      · exact hconvert hstore hexpanded
    · exact hconvert hstore hexpanded

end Step

theorem Respects.keeps (hlaw : kind.Respects env env)
    (hmark : ∀ {store type} (binder : Ty.Binder), kind.store store →
      kind.shown store type → kind.type store (binder.mark type))
    (depth : Nat) : kind.Kept env env depth ∧
      kind.Converts (makeEqTo depth env) (makeEqTo depth env) := by
  induction depth with
  | zero =>
    exact ⟨⟨fun _ _ _ => .error _, fun _ _ _ => .error _,
      fun _ _ _ _ => .error _⟩, fun _ _ => .error _⟩
  | succ depth ih =>
    obtain ⟨h, hconvert⟩ := ih
    refine ⟨⟨fun seen hstore htype =>
      h.follows_instantiateTo hlaw hstore seen htype,
      h.merges_mergeTo hlaw.toLawful, ?_⟩,
      fun hstore htype => h.follows_makeEqTo hlaw hstore hconvert htype⟩
    intro store binder type hstore hbinder htype _
    refine .same ?_
    rintro ⟨merged, next⟩ hbind
    obtain ⟨_, middle, hmiddle, _, rfl⟩ := bindTo_eq_ok_iff.mp hbind
    have hmarked := hmark binder hstore htype
    have hmerged : kind.Merged store (merged, middle) := by
      rcases hmiddle with ⟨rfl, rfl, _⟩ | ⟨_, _, hconverted, _⟩
      · exact merged_self hlaw.toLawful hstore hmarked
      · exact (hconvert hstore hmarked _ hconverted).2
    exact hlaw.replace (hlaw.given hstore hbinder) hmerged binder.free

end MergeKind

end Sml
