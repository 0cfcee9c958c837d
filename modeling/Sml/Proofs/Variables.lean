import Sml.Proofs.Shape

/-!
# The variables of a type

Collecting the variables of a type finds those of its term.  Putting types for
variables puts their terms for the variables of the term.
-/

namespace Sml

open List Table Term

variable {α : Type} {type : Ty} {f : Ty → Ty} {σ : Subst}

namespace Ty

/-! ## Elements of tuples -/

theorem toString_injective {first second : Nat}
    (h : toString first = toString second) : first = second := by
  have hdigits : Nat.toDigits 10 first = Nat.toDigits 10 second := by
    rw [Nat.toString_eq_repr, Nat.toString_eq_repr] at h
    rw [← Nat.toList_repr, h, Nat.toList_repr]
  rw [← Nat.ofDigitChars_ten_toDigits (n := first), hdigits, Nat.ofDigitChars_ten_toDigits]

theorem nodup_numbered (elements : List α) (first : Nat) :
    ((numbered first elements).map (·.1)).Nodup := by
  rw [numbered_labels]
  exact Nodup.map (fun _ _ => toString_injective) nodup_range'

theorem tupleFields_perm (elements : List Ty) :
    ((tupleFields elements).map (·.2)).Perm elements := by
  have hperm := (perm_ofList (nodup_numbered elements 1)).map (·.2)
  rwa [numbered_values] at hperm

theorem components_untupled_perm (type : Ty) : type.untupled.components.Perm type.components := by
  cases type with
  | tuple elements => exact tupleFields_perm elements
  | _ => exact .refl _

theorem size_eq (type : Ty) : type.size = (type.components.map size).sum + 1 := by
  cases type <;> simp [size, fold, components, mapValues, Function.comp_def, sum_eq_foldr]

theorem parts_term (type : Ty) : type.term.parts = type.size := by
  induction type using induct_components with
  | var => rfl
  | node type hvar ih =>
    obtain ⟨former, h⟩ := exists_term_eq_node hvar
    rw [h, parts_node, map_map, size_eq, ← (type.components_untupled_perm.map size).sum_nat]
    congr 2
    exact map_congr_left fun part hpart => ih part (mem_of_mem_untupled hpart)

/-! ## Variables of the term -/

theorem mem_vars_iff (h : type.isVar = false) (name : String) :
    name ∈ type.term.vars ↔ ∃ part ∈ type.components, name ∈ part.term.vars := by
  obtain ⟨former, hterm⟩ := exists_term_eq_node h
  simp only [hterm, mem_vars_node, mem_map, exists_exists_and_eq_and,
    type.components_untupled_perm.mem_iff]

theorem Throughout.of_mem_vars {check : Ty → Prop} (h : type.Throughout check) {name : String}
    (hname : name ∈ type.term.vars) : ∃ domain free, check (.var name domain free) := by
  induction h with
  | @intro type h _ ih =>
    cases hvar : type.isVar with
    | true =>
      obtain ⟨other, domain, free, rfl⟩ := exists_of_isVar hvar
      rw [term_var, vars_var, mem_singleton] at hname
      exact ⟨domain, free, hname ▸ h⟩
    | false =>
      obtain ⟨part, hpart, hname⟩ := (mem_vars_iff hvar name).mp hname
      exact ih part hpart hname

theorem mem_vars_record (name : String) (fields : List (String × Ty)) (complete : Bool) :
    name ∈ (record fields complete).term.vars ↔ ∃ field ∈ fields, name ∈ field.2.term.vars := by
  simp

theorem mem_vars_con (name : String) (head : TyCon) (arguments : List Ty) :
    name ∈ (con head arguments).term.vars ↔ ∃ argument ∈ arguments, name ∈ argument.term.vars := by
  simp

def isQuantifierFree : Ty → Bool := fold {
    any := true
    var := fun _ _ _ => true
    bind := fun _ _ _ _ _ => false
    record := fun fields _ => fields.all (·.2)
    arrow := fun parameter result => parameter && result
    con := fun _ arguments => arguments.all id
    tuple := fun elements => elements.all id }

theorem isQuantifierFree_iff (type : Ty) : type.isQuantifierFree = true ↔
    type.Throughout fun type => type.isVar = true ∨ type.isJoined = true :=
  iff_throughout (·.isQuantifierFree = true) (fun type => by
    cases type <;> simp [isVar, isJoined, isQuantifierFree, fold, components, mapValues,
      -Prod.forall, -Prod.exists]) type

/-! ## Occurrences -/

/-- Whether a variable occurs with a domain and a mark that are wanted. -/
def occurs (wanted : List Ty → Bool → Bool) (name : String) : Ty → Bool := fold {
    any := false
    var := fun other domain free => other == name && wanted domain free
    bind := fun _ _ _ _ body => body
    record := fun fields _ => fields.any (·.2)
    arrow := fun parameter result => parameter || result
    con := fun _ arguments => arguments.any id
    tuple := fun elements => elements.any id }

theorem occurs_var (wanted : List Ty → Bool → Bool) (name other : String) (domain : List Ty)
    (free : Bool) : (var other domain free).occurs wanted name = true ↔
      other = name ∧ wanted domain free = true := by
  simp [occurs, fold]

theorem occurs_iff (h : type.isVar = false) (wanted : List Ty → Bool → Bool) (name : String) :
    type.occurs wanted name = true ↔
      ∃ part ∈ type.components, part.occurs wanted name = true := by
  cases type <;> simp_all [isVar, occurs, fold, components, mapValues, -Prod.exists]

theorem occurs_iff_mem_vars (name : String) (type : Ty) :
    type.occurs (fun _ _ => true) name = true ↔ name ∈ type.term.vars := by
  induction type using induct_components with
  | var other domain free =>
    rw [occurs_var, term_var, vars_var, mem_singleton, eq_comm]
    simp
  | node type h ih =>
    rw [occurs_iff h, mem_vars_iff h]
    exact exists_congr fun part => and_congr_right (ih part)

/-! ## Collecting -/

/-- A fold that passes what it has found from part to part and adds the
variables that are wanted. -/
structure Collects {β : Type} (collect : Fold (β → β))
    (mem : String → β → Prop) (wanted : List Ty → Bool → Bool) : Prop where
  any : collect.any = id
  var : ∀ name other domain free found, mem name (collect.var other domain free found) ↔
      (other = name ∧ wanted domain free = true) ∨ mem name found
  record : ∀ fields complete found, collect.record fields complete found =
    fields.foldl (fun found field => field.2 found) found
  arrow : ∀ parameter result found, collect.arrow parameter result found = result (parameter found)
  con : ∀ head arguments found, collect.con head arguments found =
    arguments.foldl (fun found argument => argument found) found
  tuple : ∀ elements found, collect.tuple elements found =
    elements.foldl (fun found element => element found) found

section Collects

variable {β : Type} {collect : Fold (β → β)} {mem : String → β → Prop}
  {wanted : List Ty → Bool → Bool}

private theorem mem_foldl_collect (name : String) {types : List Ty}
    (h : ∀ type ∈ types, ∀ found, mem name (fold collect type found) ↔
      type.occurs wanted name = true ∨ mem name found) (found : β) :
    mem name (types.foldl (fun found type => fold collect type found) found) ↔
      (∃ type ∈ types, type.occurs wanted name = true) ∨ mem name found := by
  induction types generalizing found with
  | nil => simp
  | cons type types ih =>
    rw [foldl_cons, ih fun type htype => h type (by simp [htype]), h type (by simp)]
    simp only [mem_cons, exists_eq_or_imp]
    rw [← or_assoc, or_comm (a := ∃ _, _)]

theorem fold_collect (hcollect : Collects collect mem wanted) (h : type.isJoined = true)
    (found : β) : fold collect type found =
      type.components.foldl (fun found part => fold collect part found) found := by
  cases type <;> simp_all [isJoined, fold, components, mapValues, foldl_map, hcollect.any,
    hcollect.record, hcollect.arrow, hcollect.con, hcollect.tuple]

theorem mem_fold_collect (hcollect : Collects collect mem wanted) (h : type.isQuantifierFree = true)
    (name : String) (found : β) :
    mem name (fold collect type found) ↔ type.occurs wanted name = true ∨ mem name found := by
  rw [isQuantifierFree_iff] at h
  induction h generalizing found with
  | @intro type h _ ih =>
    rcases h with h | h
    · obtain ⟨other, domain, free, rfl⟩ := exists_of_isVar h
      rw [fold, hcollect.var, occurs_var]
    · rw [fold_collect hcollect h, occurs_iff (isVar_of_isJoined h)]
      exact mem_foldl_collect name ih found

end Collects

theorem mem_addName (name other : String) (names : List String) :
    name ∈ addName other names ↔ other = name ∨ name ∈ names := by
  unfold addName
  split
  · rename_i h
    rw [contains_iff_mem] at h
    constructor
    · exact .inr
    · rintro (rfl | hname)
      · exact h
      · exact hname
  · rw [mem_cons, eq_comm]

theorem collects_names : Collects collectNames (fun name names => name ∈ names)
      fun _ _ => true where
  any := rfl
  var := by simp [collectNames, mem_addName]
  record := fun _ _ _ => rfl
  arrow := fun _ _ _ => rfl
  con := fun _ _ _ => rfl
  tuple := fun _ _ => rfl

theorem mem_variableNames (h : type.isQuantifierFree = true) (name : String) :
    name ∈ type.variableNames ↔ name ∈ type.term.vars := by
  rw [variableNames, mem_reverse, mem_fold_collect collects_names h, occurs_iff_mem_vars]
  simp

theorem mem_keys_addVariable (name other : String)
    (domain : List Ty) (found : Table (List Ty)) :
    name ∈ keys (addVariable other domain found) ↔
      other = name ∨ name ∈ keys found := by
  unfold addVariable
  split <;> rw [mem_keys_insert, eq_comm]

theorem collects_variables (freeOnly : Bool) : Collects (collectVariables freeOnly)
      (fun name found => name ∈ keys found)
      fun _ free => !freeOnly || free where
  any := rfl
  var := by
    intro name other domain free found
    cases freeOnly <;> cases free <;> simp [collectVariables, mem_keys_addVariable]
  record := fun _ _ _ => rfl
  arrow := fun _ _ _ => rfl
  con := fun _ _ _ => rfl
  tuple := fun _ _ => rfl

/-- A variable is collected if it occurs, with the mark if only free ones
are wanted. -/
theorem contains_variableDomains (h : type.isQuantifierFree = true) (freeOnly : Bool)
    (name : String) :
    contains (type.variableDomains freeOnly) name = true ↔
      type.occurs (fun _ free => !freeOnly || free) name = true := by
  rw [contains_iff, variableDomains, mem_fold_collect (collects_variables freeOnly) h]
  simp

theorem contains_variableDomains_false (h : type.isQuantifierFree = true) (name : String) :
    contains (type.variableDomains false) name = true ↔ name ∈ type.term.vars := by
  rw [contains_variableDomains h, ← occurs_iff_mem_vars]
  simp

/-! ## Substitution -/

def mapVariables (f : String → List Ty → Bool → Ty) : Ty → Ty := fold { rebuild with var := f }

section MapVariables

variable (f : String → List Ty → Bool → Ty)

theorem mapVariables_eq (h : type.isVar = false) :
    type.mapVariables f = type.mapComponents (mapVariables f) := by
  cases type <;> simp_all [mapVariables, fold, rebuild, mapComponents, isVar]

theorem mapVariables_var (type : Ty) : type.mapVariables var = type := by
  induction type using induct_components with
  | var => rfl
  | node type h ih =>
    rw [mapVariables_eq var h, mapComponents_congr (g := id) ih, mapComponents_id]

theorem fold_eq_mapVariables (g : String → List Ty → Bool → Ty → Ty → Ty)
    (h : type.isQuantifierFree = true) :
    fold { rebuild with var := f, bind := g } type = type.mapVariables f := by
  rw [isQuantifierFree_iff] at h
  induction h with
  | @intro type h _ ih =>
    rcases h with h | h
    · obtain ⟨name, domain, free, rfl⟩ := exists_of_isVar h
      rfl
    · rw [fold_joined h, mapVariables_eq f (isVar_of_isJoined h), mapComponents_congr ih]

/-- What holds throughout a type and the types put for its variables. -/
theorem Throughout.mapVariables {check other : Ty → Prop} {f : String → List Ty → Bool → Ty}
    (h : type.Throughout check)
    (hvar : ∀ name ∈ type.term.vars, ∀ domain free, check (.var name domain free) →
      (f name domain free).Throughout other)
    (hcheck : ∀ type, type.isVar = false → check type →
      other (type.mapComponents (Ty.mapVariables f))) :
    (type.mapVariables f).Throughout other := by
  induction h with
  | @intro type h _ ih =>
    cases htype : type.isVar with
    | true =>
      obtain ⟨name, domain, free, rfl⟩ := exists_of_isVar htype
      exact hvar name (by simp) domain free h
    | false =>
      rw [mapVariables_eq f htype]
      refine .intro (hcheck type htype h) ?_
      rw [components_mapComponents]
      refine forall_mem_map.mpr fun part hpart => ih part hpart fun name hname => ?_
      exact hvar name ((mem_vars_iff htype name).mpr ⟨part, hpart, hname⟩)

end MapVariables

theorem term_mapVariables {f : String → List Ty → Bool → Ty}
    (h : ∀ name domain free, (f name domain free).term = σ name) (type : Ty) :
    (type.mapVariables f).term = type.term.subst σ := by
  induction type using induct_components with
  | var name domain free => exact h name domain free
  | node type h ih => rw [mapVariables_eq f h, term_mapComponents h ih]

def replace (types : String → Ty) : Ty → Ty := mapVariables fun name _ _ => types name

theorem term_replace (types : String → Ty) (type : Ty) : (type.replace types).term =
      type.term.subst fun name => (types name).term :=
  term_mapVariables (f := fun name _ _ => types name) (fun _ _ _ => rfl) type

section Quantified

variable {type : Ty} (h : type.isQuantifierFree = true)

include h

theorem makeFree_eq_mapVariables : type.makeFree = type.mapVariables fun name domain _ =>
      var name domain true :=
  fold_eq_mapVariables _ _ h

theorem rename_eq_mapVariables (names : Table String) :
    type.rename names = type.mapVariables fun name domain free =>
      var ((get? names name).getD name) domain free :=
  fold_eq_mapVariables _ _ h

theorem substitute_eq_mapVariables (types : Table Ty) :
    type.substitute types = type.mapVariables fun name domain free =>
      (get? types name).getD (var name domain free) :=
  fold_eq_mapVariables _ _ h

theorem term_rename (names : Table String) : (type.rename names).term = type.term.subst fun name =>
      .var ((get? names name).getD name) := by
  rw [rename_eq_mapVariables h]
  apply term_mapVariables
  exact fun _ _ _ => rfl

theorem term_substitute (types : Table Ty) :
    (type.substitute types).term = type.term.subst fun name =>
      ((get? types name).map term).getD (.var name) := by
  rw [substitute_eq_mapVariables h]
  apply term_mapVariables
  intro name domain free
  cases get? types name <;> rfl

end Quantified

/-- Types to put for variables, none of which leaves anything open. -/
def Definite (types : String → Ty) : Prop := ∀ name, (types name).isAnyFree = true

theorem isAnyFree_replace {types : String → Ty} (htypes : Definite types)
    (h : type.isAnyFree = true) : (type.replace types).isAnyFree = true := by
  rw [isAnyFree_iff] at h ⊢
  refine h.mapVariables (fun name _ _ _ _ => (isAnyFree_iff _).mp (htypes name)) ?_
  intro type _ h
  cases type <;> simp_all [mapComponents]

end Ty

end Sml
