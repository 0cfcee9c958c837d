import Mathlib.Algebra.Order.Group.Nat
import Sml.Proofs.Table
import Sml.Proofs.Term
import Sml.Static.Ty

/-!
# Types as terms

Every type has a term, in which tuples are records and a declared type is its
name and number.  On types without `any`, to be the same type is to have the
same term.
-/

namespace Sml.Ty

open List Table

/-! ## Induction and folds -/

@[elab_as_elim, induction_eliminator]
theorem induct {motive : Ty → Prop} (any : motive .any)
    (var : ∀ name domain free, motive (.var name domain free))
    (bind : ∀ name domain free body, motive body → motive (.bind name domain free body))
    (record : ∀ fields complete, (∀ field ∈ fields, motive field.2) →
      motive (.record fields complete))
    (arrow : ∀ parameter result, motive parameter → motive result →
      motive (.arrow parameter result))
    (con : ∀ head arguments, (∀ argument ∈ arguments, motive argument) →
      motive (.con head arguments))
    (tuple : ∀ elements, (∀ element ∈ elements, motive element) → motive (.tuple elements))
    (type : Ty) : motive type :=
  @Ty.rec motive (fun types => ∀ type ∈ types, motive type)
    (fun fields => ∀ field ∈ fields, motive field.2)
    (fun field => motive field.2)
    any (fun name domain free _ => var name domain free)
    (fun name domain free body _ => bind name domain free body)
    record arrow con tuple (by simp)
    (fun _ _ hhead htail type htype => by
      rcases mem_cons.mp htype with rfl | htype
      · exact hhead
      · exact htail type htype)
    (by simp)
    (fun _ _ hhead htail field hfield => by
      rcases mem_cons.mp hfield with rfl | hfield
      · exact hhead
      · exact htail field hfield)
    (fun _ _ htype => htype) type

section Folds

variable {β : Type} (f : Fold β)

attribute [local simp] fold foldList foldFields

@[simp] theorem foldList_eq_map (types : List Ty) : foldList f types = types.map (fold f) := by
  induction types with
  | nil => simp
  | cons type types ih => simp [ih]

@[simp] theorem foldFields_eq_map (fields : List (String × Ty)) :
    foldFields f fields = mapValues (fold f) fields := by
  induction fields with
  | nil => simp [mapValues]
  | cons field fields ih => simp [ih, mapValues]

end Folds

theorem numbered_map {α β : Type} (f : α → β) (elements : List α) (first : Nat) :
    numbered first (elements.map f) =
      (numbered first elements).map fun entry => (entry.1, f entry.2) := by
  induction elements generalizing first with
  | nil => rfl
  | cons element elements ih => simp [numbered, ih]

section Numbered

variable {α : Type} (elements : List α) (first : Nat)

theorem numbered_labels : (numbered first elements).map (·.1) =
    (range' first elements.length).map toString := by
  induction elements generalizing first with
  | nil => rfl
  | cons element elements ih => simp [numbered, ih, range'_succ]

theorem numbered_values : (numbered first elements).map (·.2) = elements := by
  induction elements generalizing first with
  | nil => rfl
  | cons element elements ih => simp [numbered, ih]

variable {elements first}

theorem mem_of_mem_numbered {entry : String × α} (h : entry ∈ numbered first elements) :
    entry.2 ∈ elements := by
  rw [← numbered_values elements first]
  exact mem_map_of_mem h

end Numbered

def tupleFields (elements : List Ty) : Table Ty := ofList (numbered 1 elements)

theorem ordered_tupleFields (elements : List Ty) : Ordered (tupleFields elements) :=
  ordered_ofList _

theorem mem_of_mem_tupleFields {elements : List Ty} {field : String × Ty}
    (h : field ∈ tupleFields elements) : field.2 ∈ elements :=
  mem_of_mem_numbered (mem_of_mem_ofList h)

theorem tupleFields_map (f : Ty → Ty) (elements : List Ty) : tupleFields (elements.map f) =
      mapValues f (tupleFields elements) := by
  rw [tupleFields, numbered_map, tupleFields, mapValues_ofList]

/-! ## Components -/

def components : Ty → List Ty
  | .any | .var _ _ _ => []
  | .bind _ _ _ body => [body]
  | .record fields _ => fields.map (·.2)
  | .arrow parameter result => [parameter, result]
  | .con _ arguments => arguments
  | .tuple elements => elements

def isVar : Ty → Bool
  | .var _ _ _ => true
  | _ => false

def isJoined : Ty → Bool
  | .var _ _ _ | .bind _ _ _ _ => false
  | _ => true

def mapComponents (f : Ty → Ty) : Ty → Ty
  | .bind name domain free body => .bind name domain free (f body)
  | .record fields complete => .record (mapValues f fields) complete
  | .arrow parameter result => .arrow (f parameter) (f result)
  | .con head arguments => .con head (arguments.map f)
  | .tuple elements => .tuple (elements.map f)
  | type => type

def untupled : Ty → Ty
  | .tuple elements => .record (tupleFields elements) true
  | type => type

variable {type : Ty}

theorem exists_of_isVar (h : type.isVar = true) :
    ∃ name domain free, type = .var name domain free := by
  cases type with
  | var name domain free => exact ⟨name, domain, free, rfl⟩
  | _ => cases h

theorem isVar_of_isJoined (h : type.isJoined = true) : type.isVar = false := by
  cases type with
  | var => cases h
  | _ => rfl

inductive Throughout (check : Ty → Prop) : Ty → Prop
  | intro {type : Ty} : check type → (∀ part ∈ type.components, Throughout check part) →
      Throughout check type

@[elab_as_elim]
theorem induct_joined {motive : Ty → Prop}
    (var : ∀ name domain free, motive (.var name domain free))
    (bind : ∀ name domain free body, motive body → motive (.bind name domain free body))
    (joined : ∀ type, type.isJoined = true → (∀ part ∈ type.components, motive part) → motive type)
    (type : Ty) : motive type := by
  induction type with
  | any => exact joined _ rfl nofun
  | var => exact var _ _ _
  | bind name domain free body ih => exact bind _ _ _ _ ih
  | record fields complete ih => exact joined _ rfl (forall_mem_map.mpr ih)
  | arrow parameter result ihParameter ihResult =>
    exact joined _ rfl (by simp [components, ihParameter, ihResult])
  | con head arguments ih | tuple arguments ih => exact joined _ rfl ih

@[elab_as_elim]
theorem induct_components {motive : Ty → Prop}
    (var : ∀ name domain free, motive (.var name domain free))
    (node : ∀ type, type.isVar = false → (∀ part ∈ type.components, motive part) → motive type)
    (type : Ty) : motive type := by
  induction type using induct_joined with
  | var => exact var _ _ _
  | bind name domain free body ih => exact node _ rfl (forall_mem_singleton.mpr ih)
  | joined type h ih => exact node type (isVar_of_isJoined h) ih

section Components

variable {part : Ty} {f g : Ty → Ty} {onVar : String → List Ty → Bool → Ty}
  {onBind : String → List Ty → Bool → Ty → Ty → Ty}

theorem components_mapComponents (f : Ty → Ty) (type : Ty) :
    (type.mapComponents f).components = type.components.map f := by
  cases type <;> simp [components, mapComponents, mapValues]

theorem isJoined_mapComponents (f : Ty → Ty) (h : type.isJoined = true) :
    (type.mapComponents f).isJoined = true := by
  cases type <;> first | rfl | exact h

theorem mapComponents_congr (h : ∀ part ∈ type.components, f part = g part) :
    type.mapComponents f = type.mapComponents g := by
  cases type <;> simp_all [components, mapComponents, mapValues]
  exact fun label part hpart => h part label hpart

theorem fold_joined (h : type.isJoined = true) :
    fold { rebuild with var := onVar, bind := onBind } type =
      type.mapComponents (fold { rebuild with var := onVar, bind := onBind }) := by
  cases type <;> simp_all [fold, rebuild, mapComponents, isJoined]

theorem mapComponents_id (type : Ty) : type.mapComponents id = type := by
  cases type <;> simp [mapComponents, mapValues]

theorem mapComponents_mapComponents (f g : Ty → Ty) (type : Ty) :
    (type.mapComponents f).mapComponents g = type.mapComponents (g ∘ f) := by
  cases type <;> simp [mapComponents, mapValues]

theorem untupled_mapComponents (f : Ty → Ty) (type : Ty) :
    (type.mapComponents f).untupled = type.untupled.mapComponents f := by
  cases type with
  | tuple elements => exact congrArg (record · true) (tupleFields_map f elements)
  | _ => rfl

theorem simplify_eq (type : Ty) : type.simplify = type.untupled.mapComponents simplify := by
  rw [← untupled_mapComponents]
  cases type <;> simp [simplify, fold, rebuild, mapComponents, untupled, tupleFields]

theorem mem_of_mem_untupled (h : part ∈ type.untupled.components) : part ∈ type.components := by
  cases type with
  | tuple elements =>
    obtain ⟨field, hfield, rfl⟩ := mem_map.mp h
    exact mem_of_mem_tupleFields hfield
  | _ => exact h

variable {check other : Ty → Prop}

/-- A predicate that a check and the components decide is the check throughout. -/
theorem iff_throughout (p : Ty → Prop)
    (h : ∀ type, p type ↔ check type ∧ ∀ part ∈ type.components, p part) (type : Ty) :
    p type ↔ type.Throughout check := by
  constructor
  · intro htype
    induction type using induct_components with
    | var => exact .intro ((h _).mp htype).1 nofun
    | node type _ ih =>
      obtain ⟨hcheck, hparts⟩ := (h type).mp htype
      exact .intro hcheck fun part hpart => ih part hpart (hparts part hpart)
  · intro htype
    induction htype with
    | intro hcheck _ ih => exact (h _).mpr ⟨hcheck, ih⟩

namespace Throughout

theorem mono (h : type.Throughout check) (hcheck : ∀ type, check type → other type) :
    type.Throughout other := by
  induction h with
  | intro h _ ih => exact .intro (hcheck _ h) ih

theorem simplify (h : type.Throughout check)
    (hcheck : ∀ type, check type → other (type.untupled.mapComponents Ty.simplify)) :
    type.simplify.Throughout other := by
  induction h with
  | intro h _ ih =>
    rw [simplify_eq]
    refine .intro (hcheck _ h) ?_
    rw [components_mapComponents]
    exact forall_mem_map.mpr fun part hpart => ih part (mem_of_mem_untupled hpart)

end Throughout

end Components

/-! ## The term of a type -/

def term : Ty → Term := fold {
    any := .node .any []
    var := fun name _ _ => .var name
    bind := fun name _ _ _ body => .node (.binder name) [body]
    record := fun fields complete =>
      .node (.record (keys fields) complete) (values fields)
    arrow := fun parameter result => .node .arrow [parameter, result]
    con := fun head arguments => .node (.con head.name head.id) arguments
    tuple := fun elements =>
      let fields := ofList (numbered 1 elements)
      .node (.record (keys fields) true) (values fields) }

@[simp] theorem term_any : any.term = .node .any [] := rfl

@[simp] theorem term_var (name : String) (domain : List Ty) (free : Bool) :
    (var name domain free).term = .var name := rfl

@[simp] theorem term_bind (name : String) (domain : List Ty) (free : Bool) (body : Ty) :
    (bind name domain free body).term = .node (.binder name) [body.term] :=
  rfl

@[simp] theorem term_record (fields : List (String × Ty)) (complete : Bool) :
    (record fields complete).term = .node (.record (keys fields) complete)
        (fields.map fun field => field.2.term) := by
  simp only [term, fold, foldFields_eq_map, keys_mapValues]
  simp [values, mapValues]

@[simp] theorem term_arrow (parameter result : Ty) : (arrow parameter result).term =
      .node .arrow [parameter.term, result.term] := rfl

@[simp] theorem term_con (head : TyCon) (arguments : List Ty) : (con head arguments).term =
      .node (.con head.name head.id) (arguments.map term) := by
  simp only [term, fold, foldList_eq_map]

theorem term_tuple (elements : List Ty) :
    (tuple elements).term = (record (tupleFields elements) true).term := by
  rw [term_record]
  simp only [term, fold, foldList_eq_map, numbered_map, ← mapValues_ofList, keys_mapValues]
  simp [values, mapValues, tupleFields]

theorem term_untupled (type : Ty) : type.untupled.term = type.term := by
  cases type with
  | tuple elements => exact (term_tuple elements).symm
  | _ => rfl

theorem exists_former (h : type.isVar = false) :
    ∃ former, ∀ f : Ty → Ty, (type.mapComponents f).term =
      .node former (type.untupled.components.map fun part => (f part).term) := by
  cases type with
  | any => exact ⟨.any, fun _ => rfl⟩
  | var => cases h
  | bind name domain free body => exact ⟨.binder name, fun _ => rfl⟩
  | record fields complete =>
    exact ⟨.record (keys fields) complete, fun f => by
      simp [mapComponents, untupled, components, mapValues, Table.keys]⟩
  | arrow parameter result => exact ⟨.arrow, fun _ => rfl⟩
  | con head arguments =>
    exact ⟨.con head.name head.id, fun f => by simp [mapComponents, untupled, components]⟩
  | tuple elements =>
    exact ⟨.record (keys (tupleFields elements)) true, fun f => by
      simp [mapComponents, untupled, components, term_tuple, tupleFields_map, mapValues,
        Table.keys]⟩

theorem exists_term_eq_node (h : type.isVar = false) :
    ∃ former, type.term = .node former (type.untupled.components.map term) := by
  obtain ⟨former, hformer⟩ := exists_former h
  exact ⟨former, by simpa [mapComponents_id] using hformer id⟩

/-- A substitution in the components is one in the type. -/
theorem term_mapComponents {f : Ty → Ty} {σ : Subst} (hvar : type.isVar = false)
    (h : ∀ part ∈ type.components, (f part).term = part.term.subst σ) :
    (type.mapComponents f).term = type.term.subst σ := by
  obtain ⟨former, hformer⟩ := exists_former hvar
  have hterm := hformer id
  rw [mapComponents_id] at hterm
  rw [hformer, hterm, Term.subst_node, map_map]
  exact congrArg _ (map_congr_left fun part hpart => h part (mem_of_mem_untupled hpart))

theorem term_mapComponents_eq {f : Ty → Ty}
    (h : ∀ part ∈ type.components, (f part).term = part.term) :
    (type.mapComponents f).term = type.term := by
  cases hvar : type.isVar with
  | true =>
    obtain ⟨name, domain, free, rfl⟩ := exists_of_isVar hvar
    rfl
  | false =>
    rw [← Term.subst_var_eq_self type.term]
    exact term_mapComponents hvar fun part hpart => by rw [h part hpart, Term.subst_var_eq_self]

/-! ## Simplifying -/

@[simp] theorem simplify_record (fields : List (String × Ty)) (complete : Bool) :
    (record fields complete).simplify = record (mapValues simplify fields) complete :=
  simplify_eq _

@[simp] theorem simplify_arrow (parameter result : Ty) : (arrow parameter result).simplify =
      arrow parameter.simplify result.simplify := rfl

@[simp] theorem simplify_con (head : TyCon) (arguments : List Ty) : (con head arguments).simplify =
      con head (arguments.map simplify) := simplify_eq _

@[simp] theorem simplify_tuple (elements : List Ty) : (tuple elements).simplify =
      record (mapValues simplify (tupleFields elements)) true := simplify_eq _

@[simp] theorem term_simplify (type : Ty) : type.simplify.term = type.term := by
  induction type using induct_components with
  | var => rfl
  | node type _ ih =>
    rw [simplify_eq, term_mapComponents_eq fun part hpart => ih part (mem_of_mem_untupled hpart),
      term_untupled]

theorem term_makeFree (type : Ty) : type.makeFree.term = type.term := by
  induction type using induct_joined with
  | var => rfl
  | bind name domain free body ih =>
    change (bind name domain true body.makeFree).term = _
    rw [term_bind, ih, term_bind]
  | joined type h ih =>
    rw [makeFree, fold_joined h]
    exact term_mapComponents_eq ih

/-! ## Equality -/

def isAnyFree : Ty → Bool := fold {
    any := false
    var := fun _ _ _ => true
    bind := fun _ _ _ _ body => body
    record := fun fields _ => fields.all (·.2)
    arrow := fun parameter result => parameter && result
    con := fun _ arguments => arguments.all id
    tuple := fun elements => elements.all id }

def isSimple : Ty → Bool := fold {
    any := false
    var := fun _ _ _ => true
    bind := fun _ _ _ _ body => body
    record := fun fields _ => fields.all (·.2)
    arrow := fun parameter result => parameter && result
    con := fun _ arguments => arguments.all id
    tuple := fun _ => false }

theorem isAnyFree_iff (type : Ty) : type.isAnyFree = true ↔ type.Throughout (· ≠ .any) :=
  iff_throughout (·.isAnyFree = true) (fun type => by
    cases type <;> simp [isAnyFree, fold, components, mapValues, -Prod.forall, -Prod.exists]) type

theorem isSimple_iff (type : Ty) : type.isSimple = true ↔
    type.Throughout fun type => type ≠ .any ∧ ∀ elements, type ≠ .tuple elements :=
  iff_throughout (·.isSimple = true) (fun type => by
    cases type <;> simp [isSimple, fold, components, mapValues, -Prod.forall, -Prod.exists]) type

theorem isSimple_record (fields : List (String × Ty)) (complete : Bool) :
    (record fields complete).isSimple = true ↔ ∀ field ∈ fields, field.2.isSimple = true := by
  simp [isSimple, fold, mapValues]

theorem isSimple_arrow (parameter result : Ty) : (arrow parameter result).isSimple = true ↔
      parameter.isSimple = true ∧ result.isSimple = true := by
  simp [isSimple, fold]

theorem isSimple_con (head : TyCon) (arguments : List Ty) : (con head arguments).isSimple = true ↔
      ∀ argument ∈ arguments, argument.isSimple = true := by
  simp [isSimple, fold]

theorem isSimple_simplify (h : type.isAnyFree = true) : type.simplify.isSimple = true := by
  rw [isAnyFree_iff] at h
  exact (isSimple_iff _).mpr <| h.simplify fun type h => by
    cases type <;> simp_all [untupled, mapComponents]

variable {fields : List (String × Ty)}

/-- What `sameRecords` decides for one type against all others. -/
private def SameIsTerm (type : Ty) : Prop := ∀ other : Ty, other.isSimple = true →
    (sameRecords type other = true ↔ type.term = other.term)

private theorem sameList_iff {types : List Ty} (h : ∀ type ∈ types, SameIsTerm type)
    (others : List Ty) (hothers : ∀ other ∈ others, other.isSimple = true) :
    sameList types others = true ↔ types.map term = others.map term := by
  induction types generalizing others with
  | nil => cases others <;> simp [sameList]
  | cons type types ih =>
    cases others with
    | nil => simp [sameList]
    | cons other others =>
      have hfirst := h type (by simp) other (hothers other (by simp))
      have hrest := ih (fun type htype => h type (by simp [htype]))
        others (fun other hother => hothers other (by simp [hother]))
      simp [sameList, hfirst, hrest]

private theorem sameFields_iff (h : ∀ field ∈ fields, SameIsTerm field.2)
    (others : List (String × Ty)) (hothers : ∀ other ∈ others, other.2.isSimple = true) :
    sameFields fields others = true ↔ keys fields = keys others ∧
        (fields.map fun field => field.2.term) = others.map fun field => field.2.term := by
  induction fields generalizing others with
  | nil => cases others <;> simp [sameFields]
  | cons field fields ih =>
    cases others with
    | nil => simp [sameFields]
    | cons other others =>
      have hfirst := h field (by simp) other.2 (hothers other (by simp))
      have hrest := ih (fun field hfield => h field (by simp [hfield]))
        others (fun other hother => hothers other (by simp [hother]))
      simp only [sameFields, Bool.and_eq_true, beq_iff_eq, hfirst, hrest,
        Table.keys_cons, map_cons, List.cons.injEq]
      tauto

private theorem sameRecords_iff (h : type.isSimple = true) : SameIsTerm type := by
  induction type with
  | any | tuple => simp [isSimple, fold] at h
  | var name domain free =>
    intro other hother
    cases other <;> simp_all [sameRecords, isSimple, fold]
  | bind name domain free body ih =>
    intro other hother
    cases other with
    | any | tuple => simp [isSimple, fold] at hother
    | bind otherName otherDomain otherFree otherBody => simp [sameRecords, ih h otherBody hother]
    | _ => simp [sameRecords]
  | record fields complete ih =>
    rw [isSimple_record] at h
    intro other hother
    cases other with
    | any | tuple => simp [isSimple, fold] at hother
    | record others otherComplete =>
      rw [isSimple_record] at hother
      have hfields := sameFields_iff (fun field hfield => ih field hfield (h field hfield)) others
        hother
      simp only [sameRecords, Bool.and_eq_true, beq_iff_eq, hfields,
        term_record, Term.node.injEq, Former.record.injEq]
      tauto
    | _ => simp [sameRecords]
  | arrow parameter result ihParameter ihResult =>
    rw [isSimple_arrow] at h
    intro other hother
    cases other with
    | any | tuple => simp [isSimple, fold] at hother
    | arrow otherParameter otherResult =>
      rw [isSimple_arrow] at hother
      simp [sameRecords, ihParameter h.1 otherParameter hother.1, ihResult h.2 otherResult hother.2]
    | _ => simp [sameRecords]
  | con head arguments ih =>
    rw [isSimple_con] at h
    intro other hother
    cases other with
    | any | tuple => simp [isSimple, fold] at hother
    | con otherHead otherArguments =>
      rw [isSimple_con] at hother
      have hlist := sameList_iff (fun argument hargument =>
          ih argument hargument (h argument hargument))
        otherArguments hother
      simp [sameRecords, hlist, TyCon.same]
    | _ => simp [sameRecords]

theorem same_iff {first second : Ty} (hfirst : first.isAnyFree = true)
    (hsecond : second.isAnyFree = true) : first.same second = true ↔ first.term = second.term := by
  rw [same, sameRecords_iff (isSimple_simplify hfirst) _
    (isSimple_simplify hsecond), term_simplify, term_simplify]

end Sml.Ty
