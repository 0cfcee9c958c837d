import Sml.Proofs.MadeTypes

/-!
# Plain and regular types

A plain type is built from variables, functions, complete records, tuples and
declared types that take the arguments they are given.  Its variables have no
domain and need not admit equality.  A regular type may have any variables,
and its declared types may lack arguments.  Nothing in such a type has to be
unfolded, so what it says is said by its term.
-/

namespace Sml

open List Table

/-- Whether a declared type is no abbreviation and has as many arguments, or
is not declared at all. -/
def TypeEnv.takes (env : TypeEnv) (head : TyCon) (count : Nat) : Bool :=
  (env.definition? head).all fun info =>
    !info.isAbbreviation && info.arity == count

/-- A part of the language of types: the variables that may occur, and the
declared types with the number of their arguments. -/
structure Fragment where
  allows : String → List Ty → Bool
  takes : TyCon → Nat → Bool
  takes_hidden : ∀ head hidden count, takes { head with hidden } count = takes head count

namespace Fragment

/-- Variables without a domain that need not admit equality, and declared
types that take their arguments. -/
def plain (env : TypeEnv) : Fragment where
  allows name domain := domain.isEmpty && !Ty.isEqualityName name
  takes := env.takes
  takes_hidden _ _ _ := rfl

/-- All variables, and declared types that are no abbreviations. -/
def regular (env : TypeEnv) : Fragment where
  allows _ _ := true
  takes head _ := (env.definition? head).all fun info => !info.isAbbreviation
  takes_hidden _ _ _ := rfl

end Fragment

variable {type : Ty}
variable {f : Ty → Ty}

namespace Ty

/-- Whether a type is built in a fragment, without `any` and binders, and all
its records are complete. -/
def isIn (fragment : Fragment) : Ty → Bool := fold {
    any := false
    var := fun name domain _ => fragment.allows name domain
    bind := fun _ _ _ _ _ => false
    record := fun fields complete =>
      complete && decide (Ordered fields) && fields.all (·.2)
    arrow := fun parameter result => parameter && result
    con := fun head arguments =>
      fragment.takes head arguments.length && arguments.all id
    tuple := fun elements => elements.all id }

def Fits (fragment : Fragment) : Ty → Prop
  | .any | .bind _ _ _ _ => False
  | .var name domain _ => fragment.allows name domain = true
  | .record fields complete => complete = true ∧ Ordered fields
  | .arrow _ _ | .tuple _ => True
  | .con head arguments => fragment.takes head arguments.length = true

section IsIn

variable {fragment : Fragment}

@[simp] theorem isIn_any : any.isIn fragment = false := rfl

@[simp] theorem isIn_bind (name : String) (domain : List Ty) (free : Bool)
    (body : Ty) : (bind name domain free body).isIn fragment = false := rfl

theorem isIn_iff_fits (type : Ty) : type.isIn fragment = true ↔
    type.Fits fragment ∧ ∀ part ∈ type.components, part.isIn fragment = true := by
  cases type <;> simp only [isIn, Fits, fold, components, foldFields_eq_map, Bool.and_eq_true,
    decide_eq_true_eq, ordered_mapValues]
  all_goals simp [mapValues, -Prod.forall, -Prod.exists]

theorem isIn_iff (type : Ty) : type.isIn fragment = true ↔ type.Throughout (Fits fragment) :=
  iff_throughout (·.isIn fragment = true) isIn_iff_fits type

theorem isIn_record (fields : List (String × Ty)) (complete : Bool) :
    (record fields complete).isIn fragment = true ↔ complete = true ∧ Ordered fields ∧
        ∀ field ∈ fields, field.2.isIn fragment = true := by
  rw [isIn_iff_fits, components, forall_mem_map, Fits, and_assoc]

theorem isIn_arrow (parameter result : Ty) : (arrow parameter result).isIn fragment = true ↔
      parameter.isIn fragment = true ∧ result.isIn fragment = true := by
  simp [isIn, fold]

theorem isIn_con (head : TyCon) (arguments : List Ty) : (con head arguments).isIn fragment = true ↔
      fragment.takes head arguments.length = true ∧
        ∀ argument ∈ arguments, argument.isIn fragment = true :=
  isIn_iff_fits _

theorem term_mark (type : Ty) (binder : Binder) : (binder.mark type).term = type.term := by
  rw [Binder.mark]
  split
  · exact term_makeFree type
  · rfl

variable (h : type.isIn fragment = true)
include h

theorem madeOf_of_isIn : type.MadeOf False (fun head count => fragment.takes head count = true)
      fun name domain => fragment.allows name domain = true := by
  rw [isIn_iff] at h
  exact (madeOf_iff _).mpr <| h.mono fun type h => by cases type <;> simp_all [Fits, Makes]

theorem isAnyFree_of_isIn : type.isAnyFree = true := (madeOf_of_isIn h).isAnyFree

theorem isQuantifierFree_of_isIn : type.isQuantifierFree = true :=
  (madeOf_of_isIn h).isQuantifierFree

theorem isResolved_of_isIn : type.isResolved = true := (madeOf_of_isIn h).isResolved

/-! ## Simplifying and freeing -/

theorem isIn_simplify : type.simplify.isIn fragment = true := by
  rw [isIn_iff] at h ⊢
  exact h.simplify fun type h => by
    cases type <;> simp_all [Fits, untupled, mapComponents, ordered_mapValues, ordered_tupleFields]

theorem isIn_mapVariables {f : String → List Ty → Bool → Ty}
    (hf : ∀ name ∈ type.term.vars, ∀ domain free, fragment.allows name domain = true →
        (f name domain free).isIn fragment = true) :
    (type.mapVariables f).isIn fragment = true := by
  rw [isIn_iff] at h ⊢
  refine h.mapVariables (fun name hname domain free h =>
    (isIn_iff _).mp (hf name hname domain free h)) fun type hvar h => ?_
  cases type <;> simp_all [Fits, isVar, mapComponents, ordered_mapValues]

theorem isIn_rename {names : Table String}
    (hnames : ∀ name ∈ type.term.vars, ∀ domain, fragment.allows name domain = true →
      ∀ new, Table.get? names name = some new → fragment.allows new domain = true) :
    (type.rename names).isIn fragment = true := by
  rw [rename_eq_mapVariables (isQuantifierFree_of_isIn h)]
  refine isIn_mapVariables h fun name hname domain _ hallows => ?_
  cases hnew : Table.get? names name with
  | none => exact hallows
  | some new => exact hnames name hname domain hallows new hnew

theorem isIn_substitute {types : Table Ty}
    (htypes : ∀ name ∈ type.term.vars, ∀ other,
      Table.get? types name = some other → other.isIn fragment = true) :
    (type.substitute types).isIn fragment = true := by
  rw [substitute_eq_mapVariables (isQuantifierFree_of_isIn h)]
  refine isIn_mapVariables h fun name hname domain _ hallows => ?_
  cases hother : Table.get? types name with
  | none => exact hallows
  | some other => exact htypes name hname other hother

theorem isIn_makeFree : type.makeFree.isIn fragment = true := by
  rw [makeFree_eq_mapVariables (isQuantifierFree_of_isIn h)]
  exact isIn_mapVariables h fun _ _ _ _ hallows => hallows

theorem isIn_mark (binder : Binder) :
    (binder.mark type).isIn fragment = true := by
  rw [Binder.mark]
  split
  · exact isIn_makeFree h
  · exact h

end IsIn

/-! ## Plain types -/

def isPlain (env : TypeEnv) (type : Ty) : Bool := type.isIn (.plain env)

variable {env : TypeEnv}

@[simp] theorem isPlain_any : any.isPlain env = false := rfl

@[simp] theorem isPlain_bind (name : String) (domain : List Ty) (free : Bool)
    (body : Ty) : (bind name domain free body).isPlain env = false := rfl

theorem isPlain_var (name : String) (domain : List Ty) (free : Bool) :
    (var name domain free).isPlain env = true ↔ domain = [] ∧ isEqualityName name = false := by
  simp [isPlain, isIn, fold, Fragment.plain]

/-! ## Regular types -/

def isRegular (env : TypeEnv) (type : Ty) : Bool := type.isIn (.regular env)

@[simp] theorem isRegular_any : any.isRegular env = false := rfl

@[simp] theorem isRegular_bind (name : String) (domain : List Ty) (free : Bool) (body : Ty) :
    (bind name domain free body).isRegular env = false := rfl

end Ty

end Sml
