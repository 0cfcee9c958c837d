import Sml.Proofs.Resolution

/-!
# Which types admit equality

Whether a type admits equality depends on the declared types it mentions, on
the arguments of their constructors, on the types these mention, and so on.
Where two environments find the same for all of them and the second assumes
no less than the first, a type that admits equality in the first admits it in
the second.
-/

namespace Sml

open List Option TypeEnv

/-! ## Declared types -/

variable {head : TyCon}
variable {env other : TypeEnv} {name : String} {behind behind' : TypeEnv → Ty → Option Bool}

theorem TypeEnv.definition?_eq_some {info : TypeInfo}
    (h : env.type? head.path head.name = some info) (hid : info.id = head.id) :
    env.definition? head = some info := by
  rw [definition?, h, filter_some, if_pos (by simp [hid])]

variable {fields : List (String × Ty)} {types arguments : List Ty} {type : Ty}

namespace Ty

/-- The declared types that a type mentions, each with the number of its
arguments. -/
def heads : Ty → List (TyCon × Nat) := fold {
    any := []
    var := fun _ _ _ => []
    bind := fun _ _ _ _ body => body
    record := fun fields _ => fields.flatMap (·.2)
    arrow := fun parameter result => parameter ++ result
    con := fun head arguments => (head, arguments.length) :: arguments.flatten
    tuple := fun elements => elements.flatten }

def ownHeads : Ty → List (TyCon × Nat)
  | .con head arguments => [(head, arguments.length)]
  | _ => []

def BuiltFrom (H : TyCon → Nat → Prop) (type : Ty) : Prop := ∀ entry ∈ type.heads, H entry.1 entry.2

section BuiltFrom

variable {H : TyCon → Nat → Prop}

theorem heads_eq (type : Ty) : type.heads = type.ownHeads ++ type.components.flatMap heads := by
  cases type <;> simp [heads, ownHeads, fold, components, Table.mapValues, flatMap_map,
    ← flatMap_def]

theorem builtFrom_iff_parts (type : Ty) : type.BuiltFrom H ↔
    type.HeadIn H ∧ ∀ part ∈ type.components, part.BuiltFrom H := by
  rw [BuiltFrom, heads_eq, forall_mem_append, forall_mem_flatMap]
  refine and_congr_left' ?_
  cases type <;> simp [ownHeads, HeadIn]

theorem builtFrom_iff (type : Ty) : type.BuiltFrom H ↔ type.Throughout (HeadIn H) :=
  iff_throughout (BuiltFrom H) builtFrom_iff_parts type

theorem builtFrom_any : any.BuiltFrom H := by simp [BuiltFrom, heads, fold]

theorem builtFrom_var (name : String) (domain : List Ty) (free : Bool) :
    (var name domain free).BuiltFrom H := by
  simp [BuiltFrom, heads, fold]

theorem builtFrom_bind {domain : List Ty} {free : Bool} {body : Ty} :
    (bind name domain free body).BuiltFrom H ↔ body.BuiltFrom H := by
  simp [BuiltFrom, heads, fold]

theorem builtFrom_record {complete : Bool} : (record fields complete).BuiltFrom H ↔
      ∀ field ∈ fields, field.2.BuiltFrom H := by
  simp [builtFrom_iff_parts (record _ _), components, HeadIn, -Prod.forall, -Prod.exists]

theorem builtFrom_arrow {parameter result : Ty} : (arrow parameter result).BuiltFrom H ↔
      parameter.BuiltFrom H ∧ result.BuiltFrom H := by
  simp [BuiltFrom, heads, fold, or_imp, forall_and]

theorem builtFrom_con : (con head arguments).BuiltFrom H ↔ H head arguments.length ∧
        ∀ argument ∈ arguments, argument.BuiltFrom H := builtFrom_iff_parts _

theorem builtFrom_tuple {elements : List Ty} : (tuple elements).BuiltFrom H ↔
      ∀ element ∈ elements, element.BuiltFrom H := by
  simp [builtFrom_iff_parts (tuple _), components, HeadIn]

theorem heads_fold {onVar : String → List Ty → Bool → Ty}
    {onBind : String → List Ty → Bool → Ty → Ty → Ty}
    (hvar : ∀ name domain free, (onVar name domain free).heads = [])
    (hbind : ∀ name domain free body result,
      (onBind name domain free body result).heads = result.heads) (type : Ty) :
    (fold { rebuild with var := onVar, bind := onBind } type).heads =
      type.heads := by
  induction type using induct_joined with
  | var name domain free => exact hvar name domain free
  | bind name domain free body ih => exact (hbind ..).trans ih
  | joined type h ih =>
    rw [fold_joined h, heads_eq, heads_eq type, components_mapComponents, flatMap_map,
      flatMap_congr ih]
    cases type <;> simp [ownHeads, mapComponents]

theorem heads_rename (names : Table String) (type : Ty) :
    (rename names type).heads = type.heads := by
  unfold rename
  apply heads_fold
  · exact fun _ _ _ => rfl
  · exact fun _ _ _ _ _ => rfl

theorem heads_makeFree (type : Ty) : type.makeFree.heads = type.heads := by
  unfold makeFree
  apply heads_fold
  · exact fun _ _ _ => rfl
  · exact fun _ _ _ _ _ => rfl

theorem BuiltFrom.rename (h : type.BuiltFrom H) (names : Table String) :
    (Ty.rename names type).BuiltFrom H := by
  rwa [BuiltFrom, heads_rename]

theorem BuiltFrom.asEqualityType (h : type.BuiltFrom H) : type.asEqualityType.BuiltFrom H :=
  h.rename _

theorem BuiltFrom.mark (h : type.BuiltFrom H) (binder : Binder) :
    (binder.mark type).BuiltFrom H := by
  unfold Binder.mark
  split
  · rwa [BuiltFrom, heads_makeFree]
  · exact h

theorem BuiltFrom.simplify (h : type.BuiltFrom H) : type.simplify.BuiltFrom H := by
  rw [builtFrom_iff] at h ⊢
  exact h.simplify fun type h => by cases type <;> simp_all [HeadIn, untupled, mapComponents]

theorem isUnfolded_congr (h : env.type? = other.type?) (type : Ty) :
    type.isUnfolded env = type.isUnfolded other := by
  unfold isUnfolded definition?
  rw [h]

theorem isUnfolded_iff_builtFrom :
    type.isUnfolded env = true ↔ type.BuiltFrom fun head _ =>
      ((env.definition? head).all fun info => !info.isAbbreviation) = true :=
  (isUnfolded_iff type).trans (builtFrom_iff type).symm

end BuiltFrom

/-! ## All of several types -/

@[simp] theorem bind_ite_eq_some_true {first second : Option Bool} :
    (first.bind fun admits => if admits = true then second else some false) = some true ↔
      first = some true ∧ second = some true := by
  rcases first with _ | _ | _ <;> simp

theorem allM_eq_some_true {α : Type} {p : α → Option Bool} {items : List α} :
    items.allM p = some true ↔ ∀ item ∈ items, p item = some true := by
  induction items with
  | nil => simp
  | cons item items ih => rcases hitem : p item with _ | _ | _ <;> simp [hitem, ih]

section All

variable {unfold : TypeEnv → Ty → Except TypeFault Ty}
  {behind : TypeEnv → Ty → Option Bool} {env : TypeEnv}

theorem allAdmitBy_iff : allAdmitBy unfold behind types env = some true ↔
      ∀ type ∈ types, admitsBy unfold behind type env = some true := by
  induction types with
  | nil => simp [allAdmitBy]
  | cons type types ih => simp [allAdmitBy, ih]

theorem fieldsAdmitBy_eq (fields : List (String × Ty)) : fieldsAdmitBy unfold behind fields env =
      allAdmitBy unfold behind (fields.map (·.2)) env := by
  induction fields with
  | nil => simp [fieldsAdmitBy, allAdmitBy]
  | cons field fields ih => simp [fieldsAdmitBy, allAdmitBy, ih]

theorem fieldsAdmitBy_mapValues (f : Ty → Ty) (fields : List (String × Ty)) :
    fieldsAdmitBy unfold behind (Table.mapValues f fields) env =
      allAdmitBy unfold behind ((fields.map (·.2)).map f) env := by
  simp [fieldsAdmitBy_eq, Table.mapValues, Function.comp_def]

theorem fieldsAdmitBy_iff : fieldsAdmitBy unfold behind fields env = some true ↔
      ∀ field ∈ fields, admitsBy unfold behind field.2 env = some true := by
  rw [fieldsAdmitBy_eq, allAdmitBy_iff, List.forall_mem_map]

end All

end Ty

/-! ## One declared type -/

namespace TypeEnv

def isUnknown (env : TypeEnv) (head : TyCon) : Bool := (env.assumed? head.name head.id).isNone &&
    (env.type? head.path head.name).isNone

/-- Whether the type is unfolded: it is an abbreviation of which nothing is
assumed. -/
def expands (env : TypeEnv) (head : TyCon) : Bool := (env.assumed? head.name head.id).isNone &&
    (env.definition? head).any (·.isAbbreviation)

/-- Where the arguments of a declared type and of its constructors are
looked at: the type itself is assumed to admit equality. -/
def inside (env : TypeEnv) (head : TyCon) : TypeEnv :=
  match env.assumed? head.name head.id, env.definition? head with
  | none, some info => env.assume head.name head.id ⟨info.arity, true⟩
  | _, _ => env

/-- What a declared type demands for equality, apart from its arguments. -/
def headAdmits (behind : TypeEnv → Ty → Option Bool) (env : TypeEnv) (head : TyCon) : Bool :=
  match env.assumed? head.name head.id, env.definition? head with
  | some assumed, _ => assumed.equality
  | none, some info =>
    info.equality && info.constructors.all fun constructor =>
      (env.argument? head.path constructor).all fun argument =>
        behind (env.inside head) argument.asEqualityType == some true
  | none, none => true

theorem expands_eq_false
    (h : ((env.definition? head).all fun info => !info.isAbbreviation) = true) :
    env.expands head = false := by
  unfold expands
  cases hdefinition : env.definition? head with
  | none => simp
  | some info =>
    rw [hdefinition, all_some, Bool.not_eq_true'] at h
    simp [h]

@[simp] theorem type?_inside (env : TypeEnv) (head : TyCon) :
    (env.inside head).type? = env.type? := by
  unfold inside
  split <;> rfl

end TypeEnv

namespace Ty

section Parts

variable {unfold : TypeEnv → Ty → Except TypeFault Ty}
  {behind : TypeEnv → Ty → Option Bool} {env : TypeEnv}

theorem admitsBy_con (hexpands : env.expands head = false) :
    admitsBy unfold behind (con head arguments) env = some true ↔
      env.isUnknown head = true ∨ env.headAdmits behind head = true ∧
        allAdmitBy unfold behind arguments (env.inside head) = some true := by
  unfold expands at hexpands
  rw [admitsBy, isUnknown, headAdmits, inside]
  cases hassumed : env.assumed? head.name head.id with
  | some assumed => cases hequality : assumed.equality <;> simp [hequality]
  | none =>
    cases hinfo : env.type? head.path head.name with
    | none => simp
    | some info =>
      by_cases hid : info.id = head.id
      · have hdefinition := definition?_eq_some hinfo hid
        simp only [hassumed, hdefinition, isNone_none, Bool.true_and, any_some] at hexpands
        have hconstructor : ∀ constructor,
            (env.argument? head.path constructor).elim (some true) (fun argument =>
                behind (env.assume head.name head.id ⟨info.arity, true⟩)
                  argument.asEqualityType) = some true ↔
              ((env.argument? head.path constructor).all fun argument =>
                behind (env.assume head.name head.id ⟨info.arity, true⟩)
                  argument.asEqualityType == some true) = true := by
          intro constructor
          cases env.argument? head.path constructor <;> simp
        cases hequality : info.equality <;>
          simp [hid, hdefinition, hexpands, hequality, allM_eq_some_true, hconstructor, and_comm]
      · have hdefinition : env.definition? head = none := by simp [definition?, hinfo, hid]
        simp [hid, hdefinition]

/-- An abbreviation admits equality if what it stands for does and is
another type. -/
theorem admitsBy_abbreviation_iff (hexpands : env.expands head = true) :
    admitsBy unfold behind (con head arguments) env = some true ↔
      ∃ result, unfold env (con head arguments) = .ok result ∧
        (∀ expanded others, result = con expanded others → expanded.same head = false) ∧
        behind env result = some true := by
  rw [expands, Bool.and_eq_true, Option.isNone_iff_eq_none, Option.any_eq_true] at hexpands
  obtain ⟨hassumed, info, hdefinition, habbreviation⟩ := hexpands
  obtain ⟨hinfo, hid⟩ := filter_eq_some_iff.mp hdefinition
  rw [beq_iff_eq] at hid
  rw [admitsBy]
  simp only [hassumed, hinfo, hid, ne_eq, not_true_eq_false, if_false, habbreviation, if_true]
  cases unfold env (con head arguments) with
  | error fault => cases fault <;> simp
  | ok result =>
    cases result with
    | con expanded others => cases hsame : expanded.same head <;> simp [hsame]
    | _ => simp

private theorem allAdmitBy_simplify
    (h : ∀ type ∈ types, admitsBy unfold behind type.simplify env = some true ↔
      admitsBy unfold behind type env = some true) :
    allAdmitBy unfold behind (types.map simplify) env = some true ↔
      allAdmitBy unfold behind types env = some true := by
  rw [allAdmitBy_iff, allAdmitBy_iff, List.forall_mem_map]
  exact forall₂_congr h

theorem admitsBy_simplify (h : type.isUnfolded env = true) :
    admitsBy unfold behind type.simplify env = some true ↔
      admitsBy unfold behind type env = some true := by
  induction type generalizing env with
  | any | var => rfl
  | bind name domain free body ih =>
    rw [admitsBy, ← ih h]
    rfl
  | record fields complete ih =>
    rw [isUnfolded_record] at h
    rw [simplify_record, admitsBy, admitsBy, fieldsAdmitBy_mapValues, fieldsAdmitBy_eq]
    exact allAdmitBy_simplify (List.forall_mem_map.mpr fun field hfield =>
      ih field hfield (h field hfield))
  | arrow parameter result => rw [simplify_arrow, admitsBy, admitsBy]
  | con head arguments ih =>
    obtain ⟨hplain, harguments⟩ := (isUnfolded_con _ _).mp h
    have hexpands := expands_eq_false hplain
    rw [simplify_con, admitsBy_con hexpands, admitsBy_con hexpands, allAdmitBy_simplify]
    intro argument hargument
    apply ih argument hargument
    rw [isUnfolded_congr (env.type?_inside head)]
    exact harguments argument hargument
  | tuple elements ih =>
    rw [isUnfolded_tuple] at h
    rw [simplify_tuple, admitsBy, admitsBy, fieldsAdmitBy_mapValues, allAdmitBy_simplify,
      allAdmitBy_iff, allAdmitBy_iff]
    · simp only [(tupleFields_perm elements).mem_iff]
    · intro element helement
      rw [(tupleFields_perm elements).mem_iff] at helement
      exact ih element helement (h element helement)

end Parts

end Ty

/-! ## Environments that assume more -/

/-- The declarations of types of a set mention only types of the set.
Abbreviations are among them only if `A` holds. -/
structure TypeEnv.Closed (A : Prop) (H : TyCon → Nat → Prop) (env : TypeEnv) : Prop where
  hidden : ∀ {head count} (hidden : Bool), H head count → H { head with hidden } count
  abbreviations : ∀ {head count info abbreviation}, H head count →
    env.definition? head = some info → info.abbreviation? = some abbreviation →
        A ∧ (∀ parameter ∈ abbreviation.parameters, parameter.BuiltFrom H) ∧
          abbreviation.body.BuiltFrom H
  constructors : ∀ {head count info constructor argument}, H head count →
    env.definition? head = some info → constructor ∈ info.constructors →
      env.argument? head.path constructor = some argument → argument.BuiltFrom H

/-- For types of a set the second environment finds what the first finds and
assumes what the first assumes, or more. -/
structure TypeEnv.Trusts (A : Prop) (H : TyCon → Nat → Prop)
    (env other : TypeEnv) : Prop extends env.Closed A H where
  types : ∀ {head count}, H head count →
    other.type? head.path head.name = env.type? head.path head.name
  arguments : ∀ {head count info constructor}, H head count →
    env.definition? head = some info → constructor ∈ info.constructors →
      other.argument? head.path constructor = env.argument? head.path constructor
  kept : ∀ {head count assumed}, H head count → env.assumed? head.name head.id = some assumed →
      ∃ more, other.assumed? head.name head.id = some more ∧
        (assumed.equality = true → more.equality = true)
  /-- What is assumed in addition is declared. -/
  new : ∀ {head count more}, H head count → env.assumed? head.name head.id = none →
      other.assumed? head.name head.id = some more → more.equality = true ∧
          (count = 0 ∨ (env.type? head.path head.name).isSome = true) ∧
          ∀ info, env.definition? head = some info → info.isAbbreviation = false

variable {count : Nat}

namespace TypeEnv.Trusts

variable {A : Prop} {H : TyCon → Nat → Prop} {env other : TypeEnv}

theorem refl (h : env.Closed A H) : env.Trusts A H env where
  toClosed := h
  types _ := rfl
  arguments _ _ _ := rfl
  kept _ hassumed := ⟨_, hassumed, fun hequality => hequality⟩
  new _ hnone hmore := by
    rw [hnone] at hmore
    cases hmore

variable (h : env.Trusts A H other)
include h

theorem assume (name : String) (id : Nat) {less more : Assumption}
    (himp : less.equality = true → more.equality = true) :
    (env.assume name id less).Trusts A H (other.assume name id more) :=
  { h with
    kept := by
      intro head count assumed hhead hassumed
      simp only [TypeEnv.assume] at hassumed ⊢
      split at hassumed
      · rename_i hkey
        cases hassumed
        exact ⟨more, if_pos hkey, himp⟩
      · rename_i hkey
        rw [if_neg hkey]
        exact h.kept hhead hassumed
    new := by
      intro head count found hhead hnone hfound
      simp only [TypeEnv.assume] at hnone hfound
      split at hnone
      · cases hnone
      · rename_i hkey
        rw [if_neg hkey] at hfound
        exact h.new hhead hnone hfound }

theorem assume_left {id : Nat} {more : Assumption} (hmore : other.assumed? name id = some more)
    (hequality : more.equality = true) (arity : Nat) :
    (env.assume name id ⟨arity, true⟩).Trusts A H other :=
  { h with
    kept := by
      intro head count assumed hhead hassumed
      simp only [TypeEnv.assume] at hassumed
      split at hassumed
      · rename_i hkey
        rw [hkey.1, hkey.2]
        exact ⟨more, hmore, fun _ => hequality⟩
      · exact h.kept hhead hassumed
    new := by
      intro head count found hhead hnone hfound
      simp only [TypeEnv.assume] at hnone
      split at hnone
      · cases hnone
      · exact h.new hhead hnone hfound }

variable (hhead : H head count)
include hhead

theorem definition? : other.definition? head = env.definition? head := by
  rw [TypeEnv.definition?, h.types hhead, TypeEnv.definition?]

theorem inside : (env.inside head).Trusts A H (other.inside head) := by
  unfold TypeEnv.inside
  rw [h.definition? hhead]
  cases hassumed : env.assumed? head.name head.id with
  | some assumed =>
    obtain ⟨more, hmore, _⟩ := h.kept hhead hassumed
    rw [hmore]
    exact h
  | none =>
    cases hmore : other.assumed? head.name head.id with
    | some more =>
      have hequality := (h.new hhead hassumed hmore).1
      cases env.definition? head with
      | none => exact h
      | some info => exact h.assume_left hmore hequality info.arity
    | none =>
      cases env.definition? head with
      | none => exact h
      | some info => exact h.assume head.name head.id fun _ => rfl

theorem headAdmits
    (hbehind : ∀ {type : Ty}, type.BuiltFrom H → behind (env.inside head) type = some true →
        behind' (other.inside head) type = some true)
    (hadmits : env.headAdmits behind head = true) : other.headAdmits behind' head = true := by
  unfold TypeEnv.headAdmits at hadmits ⊢
  rw [h.definition? hhead]
  cases hassumed : env.assumed? head.name head.id with
  | some assumed =>
    obtain ⟨more, hmore, himp⟩ := h.kept hhead hassumed
    rw [hassumed] at hadmits
    rw [hmore]
    exact himp hadmits
  | none =>
    rw [hassumed] at hadmits
    cases hmore : other.assumed? head.name head.id with
    | some more => exact (h.new hhead hassumed hmore).1
    | none =>
      cases hdefinition : env.definition? head with
      | none => rfl
      | some info =>
        simp only [hdefinition, Bool.and_eq_true, List.all_eq_true] at hadmits
        simp only [Bool.and_eq_true, List.all_eq_true]
        refine ⟨hadmits.1, fun constructor hmem => ?_⟩
        have hconstructor := hadmits.2 constructor hmem
        rw [h.arguments hhead hdefinition hmem]
        cases hargument : env.argument? head.path constructor with
        | none => rfl
        | some argument =>
          rw [hargument, all_some, beq_iff_eq] at hconstructor
          rw [all_some, beq_iff_eq]
          exact hbehind (h.constructors hhead hdefinition hmem
            hargument).asEqualityType hconstructor

theorem expands : other.expands head = env.expands head := by
  unfold TypeEnv.expands
  rw [h.definition? hhead]
  cases hassumed : env.assumed? head.name head.id with
  | some assumed =>
    obtain ⟨more, hmore, _⟩ := h.kept hhead hassumed
    rw [hmore]
    rfl
  | none =>
    cases hmore : other.assumed? head.name head.id with
    | none => rfl
    | some more =>
      have hplain := (h.new hhead hassumed hmore).2.2
      cases hdefinition : env.definition? head with
      | none => rfl
      | some info => simp [hplain info hdefinition]

theorem isUnknown (hunknown : other.isUnknown head = true) : env.isUnknown head = true := by
  unfold TypeEnv.isUnknown at hunknown ⊢
  rw [h.types hhead, Bool.and_eq_true] at hunknown
  rw [hunknown.2, Bool.and_true]
  cases hassumed : env.assumed? head.name head.id with
  | none => rfl
  | some assumed =>
    obtain ⟨more, hmore, _⟩ := h.kept hhead hassumed
    rw [hmore] at hunknown
    exact absurd hunknown.1 (by simp)

theorem isUnknown_or (hunknown : env.isUnknown head = true) (behind : TypeEnv → Ty → Option Bool) :
    other.isUnknown head = true ∨ count = 0 ∧ other.headAdmits behind head = true := by
  rw [TypeEnv.isUnknown, Bool.and_eq_true, Option.isNone_iff_eq_none,
    Option.isNone_iff_eq_none] at hunknown
  cases hmore : other.assumed? head.name head.id with
  | none => simp [TypeEnv.isUnknown, hmore, h.types hhead, hunknown.2]
  | some more =>
    obtain ⟨hequality, hfound, _⟩ := h.new hhead hunknown.1 hmore
    rw [hunknown.2] at hfound
    refine .inr ⟨hfound.resolve_right (by simp), ?_⟩
    rw [TypeEnv.headAdmits, hmore]
    exact hequality

end TypeEnv.Trusts

namespace Ty

variable {A : Prop} {H : TyCon → Nat → Prop} {unfold unfold' : TypeEnv → Ty → Except TypeFault Ty}

def Unfolds (A : Prop) (H : TyCon → Nat → Prop)
    (unfold unfold' : TypeEnv → Ty → Except TypeFault Ty) : Prop :=
  A → ∀ {env other : TypeEnv} {type result : Ty}, env.Trusts A H other →
    type.BuiltFrom H → unfold env type = .ok result →
      unfold' other type = .ok result ∧ result.BuiltFrom H

theorem admitsBy_mono (hunfold : Unfolds A H unfold unfold')
    (hbehind : ∀ {env other : TypeEnv} {type : Ty}, env.Trusts A H other →
      type.BuiltFrom H → behind env type = some true → behind' other type = some true)
    (htrusts : env.Trusts A H other) (htype : type.BuiltFrom H)
    (h : admitsBy unfold behind type env = some true) :
    admitsBy unfold' behind' type other = some true := by
  induction type generalizing env other with
  | any => rw [admitsBy]
  | var name domain free => rwa [admitsBy] at h ⊢
  | bind name domain free body ih =>
    exact ih htrusts (builtFrom_bind.mp htype) h
  | record fields complete ih =>
    rw [builtFrom_record] at htype
    rw [admitsBy, fieldsAdmitBy_iff] at h ⊢
    exact fun field hfield => ih field hfield htrusts (htype field hfield) (h field hfield)
  | arrow parameter result => rw [admitsBy] at h; cases h
  | tuple elements ih =>
    rw [builtFrom_tuple] at htype
    rw [admitsBy, allAdmitBy_iff] at h ⊢
    exact fun element helement =>
      ih element helement htrusts (htype element helement) (h element helement)
  | con head arguments ih =>
    obtain ⟨hhead, harguments⟩ := builtFrom_con.mp htype
    have hall : ∀ {env other : TypeEnv}, env.Trusts A H other →
        allAdmitBy unfold behind arguments env = some true →
        allAdmitBy unfold' behind' arguments other = some true := by
      intro env other htrusts h
      rw [allAdmitBy_iff] at h ⊢
      exact fun argument hargument => ih argument hargument htrusts
        (harguments argument hargument) (h argument hargument)
    have hexpands := htrusts.expands hhead
    cases hown : env.expands head with
    | true =>
      rw [admitsBy_abbreviation_iff hown] at h
      rw [admitsBy_abbreviation_iff (hexpands.trans hown)]
      obtain ⟨result, hresult, hne, hadmits⟩ := h
      rw [expands, Bool.and_eq_true, Option.any_eq_true] at hown
      obtain ⟨_, info, hdefinition, habbreviation⟩ := hown
      obtain ⟨abbreviation, habbreviation⟩ := isSome_iff_exists.mp habbreviation
      have hA := (htrusts.abbreviations hhead hdefinition habbreviation).1
      obtain ⟨hresult, hbuilt⟩ := hunfold hA htrusts htype hresult
      exact ⟨result, hresult, hne, hbehind htrusts hbuilt hadmits⟩
    | false =>
      rw [admitsBy_con hown] at h
      rw [admitsBy_con (hexpands.trans hown)]
      rcases h with hunknown | ⟨hadmits, h⟩
      · refine (htrusts.isUnknown_or hhead hunknown behind').imp_right ?_
        rintro ⟨hnone, hadmits⟩
        rw [length_eq_zero_iff.mp hnone, allAdmitBy]
        exact ⟨hadmits, rfl⟩
      · have hinside := htrusts.inside hhead
        exact .inr ⟨htrusts.headAdmits hhead (hbehind hinside) hadmits, hall hinside h⟩

theorem admitsWithin_mono (hunfold : Unfolds A H unfold unfold') {room : Nat}
    (htrusts : env.Trusts A H other) (htype : type.BuiltFrom H)
    (h : admitsWithin unfold room env type = some true) :
    admitsWithin unfold' room other type = some true := by
  induction room generalizing type env other with
  | zero => rw [admitsWithin] at h; cases h
  | succ room ih =>
    exact admitsBy_mono hunfold ih htrusts htype h

theorem exists_admitsEquality_eq : ∃ room, ∀ env type,
    admitsEquality env type = admitsBy (fun env => instantiate env {})
      (admitsWithin (fun env => instantiate env {}) room) type env :=
  ⟨999999, fun _ _ => rfl⟩

end Ty

end Sml
