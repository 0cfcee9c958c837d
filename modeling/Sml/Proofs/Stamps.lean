import Mathlib.Order.Basic
import Sml.Evaluation.Interface
import Sml.Evaluation.Match
import Sml.Proofs.Table

/-!
# The numbers of cells and exceptions

A reference holds the number of its cell, an exception the number that its
declaration gave it.  Both are given in order: a number has been given if it is
below the counter.  What evaluation finds inside values and bases, by matching
or by restricting, has no numbers but theirs.
-/

namespace Sml

open List Option Table DynamicBasis

variable {counters : Counters} {name : String} {structures : List (String × DynamicBasis)}

inductive Stamp where
  | cell (address : Nat)
  | exception (id : Nat)
deriving DecidableEq, Repr

structure Counters where
  cells : Nat
  exceptions : Nat

namespace Counters

instance : Preorder Counters where
  le first second := first.cells ≤ second.cells ∧ first.exceptions ≤ second.exceptions
  le_refl _ := ⟨le_rfl, le_rfl⟩
  le_trans _ _ _ hfirst hsecond := ⟨hfirst.1.trans hsecond.1, hfirst.2.trans hsecond.2⟩

def Gave (counters : Counters) : Stamp → Prop
  | .cell address => address < counters.cells
  | .exception id => id < counters.exceptions

instance (counters : Counters) : (stamp : Stamp) → Decidable (counters.Gave stamp)
  | .cell address => inferInstanceAs (Decidable (address < counters.cells))
  | .exception id => inferInstanceAs (Decidable (id < counters.exceptions))

theorem Gave.later {later : Counters} {stamp : Stamp} (h : counters.Gave stamp)
    (hle : counters ≤ later) : later.Gave stamp := by
  cases stamp with
  | cell address => exact Nat.lt_of_lt_of_le h hle.1
  | exception id => exact Nat.lt_of_lt_of_le h hle.2

end Counters

/-! ## Values -/

variable {fields : List (String × Value)} {elements : List Value}

namespace Value

mutual

/-- The stamps in a value.  Those that a function can reach are in the frames
of its scope. -/
def stamps : Value → List Stamp
  | .record fields => stampsOfFields fields
  | .constructed _ argument => stampsOfOption argument
  | .exnConstructor _ id => [.exception id]
  | .exn _ id argument => .exception id :: stampsOfOption argument
  | .reference address => [.cell address]
  | .int _ => []
  | .real _ => []
  | .string _ => []
  | .char _ => []
  | .constructor _ => []
  | .makeRef => []
  | .closure _ _ => []
  | .primitive _ => []
  | .selector _ => []

def stampsOfFields : List (String × Value) → List Stamp
  | [] => []
  | (_, value) :: rest => stamps value ++ stampsOfFields rest

def stampsOfOption : Option Value → List Stamp
  | none => []
  | some value => stamps value

end

def Known (counters : Counters) (value : Value) : Prop :=
  ∀ stamp ∈ value.stamps, counters.Gave stamp

variable {counters : Counters} {value : Value}

theorem Known.later {later : Counters}
    (h : value.Known counters) (hle : counters ≤ later) : value.Known later :=
  fun stamp hstamp => (h stamp hstamp).later hle

private theorem forall_stampsOfFields : (∀ stamp ∈ stampsOfFields fields, counters.Gave stamp) ↔
      ∀ field ∈ fields, field.2.Known counters := by
  induction fields with
  | nil => simp [stampsOfFields]
  | cons field fields ih =>
    simp only [stampsOfFields, forall_mem_append, forall_mem_cons, ih]
    rfl

private theorem forall_stampsOfOption {argument : Option Value} :
    (∀ stamp ∈ stampsOfOption argument, counters.Gave stamp) ↔
      ∀ value ∈ argument, value.Known counters := by
  cases argument with
  | none => simp [stampsOfOption]
  | some value =>
    simp only [stampsOfOption, mem_some_iff, forall_eq']
    rfl

theorem known_of_stamps_eq_nil (h : value.stamps = []) : value.Known counters := by
  rw [Known, h]
  simp

@[simp] theorem known_int (value : Int64) : (int value).Known counters := known_of_stamps_eq_nil rfl

@[simp] theorem known_real (value : Float) : (real value).Known counters :=
  known_of_stamps_eq_nil rfl

@[simp] theorem known_string (value : String) : (string value).Known counters :=
  known_of_stamps_eq_nil rfl

@[simp] theorem known_char (value : Char) : (char value).Known counters :=
  known_of_stamps_eq_nil rfl

@[simp] theorem known_record : (record fields).Known counters ↔
      ∀ field ∈ fields, field.2.Known counters := by
  rw [Known, stamps, forall_stampsOfFields]

@[simp] theorem known_constructed {argument : Option Value} :
    (constructed name argument).Known counters ↔ ∀ value ∈ argument, value.Known counters := by
  rw [Known, stamps, forall_stampsOfOption]

@[simp] theorem known_constructor (name : String) : (constructor name).Known counters :=
  known_of_stamps_eq_nil rfl

@[simp] theorem known_exnConstructor {id : Nat} :
    (exnConstructor name id).Known counters ↔ id < counters.exceptions :=
  forall_mem_singleton

@[simp] theorem known_exn {id : Nat} {argument : Option Value} :
    (exn name id argument).Known counters ↔
      id < counters.exceptions ∧ ∀ value ∈ argument, value.Known counters := by
  rw [Known, stamps, forall_mem_cons, forall_stampsOfOption]
  rfl

@[simp] theorem known_closure (rules : Match Expr) (scope : List Nat) :
    (closure rules scope).Known counters :=
  known_of_stamps_eq_nil rfl

@[simp] theorem known_selector (label : String) : (selector label).Known counters :=
  known_of_stamps_eq_nil rfl

@[simp] theorem known_reference {address : Nat} :
    (reference address).Known counters ↔ address < counters.cells :=
  forall_mem_singleton

@[simp] theorem known_unit : unit.Known counters := by
  simp [unit]

@[simp] theorem known_bool (value : Bool) : (bool value).Known counters := by
  simp [bool]

section

variable (h : ∀ element ∈ elements, element.Known counters)
include h

theorem known_ofNumbered (first : Nat) :
    ∀ field ∈ Ty.numbered first elements, field.2.Known counters := by
  induction elements generalizing first with
  | nil => simp [Ty.numbered]
  | cons element elements ih =>
    rw [Ty.numbered, forall_mem_cons]
    exact ⟨h element (by simp), ih (fun element helement => h element (by simp [helement])) _⟩

theorem known_tuple : (tuple elements).Known counters := by
  rw [tuple, known_record]
  exact fun field hfield => known_ofNumbered h 1 field (mem_of_mem_ofList hfield)

theorem known_list : (list elements).Known counters := by
  induction elements with
  | nil => simp [list, nil]
  | cons element elements ih =>
    have hrest := ih fun element helement => h element (by simp [helement])
    have hfirst := h element (by simp)
    change (cons element (list elements)).Known counters
    rw [cons, known_constructed]
    rintro _ ⟨⟩
    exact known_tuple (by simp [hfirst, hrest])

end

/-! ## Parts of values -/

theorem Known.get? (h : (record fields).Known counters) {label : String}
    (hfound : Table.get? fields label = some value) : value.Known counters :=
  known_record.mp h _ (mem_of_get? hfound)

theorem Known.argument (h : (constructed name (some value)).Known counters) :
    value.Known counters :=
  known_constructed.mp h value rfl

theorem Known.asTuple? (h : value.Known counters)
    (hfound : value.asTuple? = some elements) : ∀ element ∈ elements, element.Known counters := by
  cases value with
  | record fields =>
    rw [Value.asTuple?] at hfound
    generalize List.range fields.length = indices at hfound
    induction indices generalizing elements with
    | nil =>
      cases hfound
      simp
    | cons index indices ih =>
      rw [mapM_cons] at hfound
      obtain ⟨first, hfirst, hfound⟩ := bind_eq_some_iff.mp hfound
      obtain ⟨others, hothers, hfound⟩ := bind_eq_some_iff.mp hfound
      cases hfound
      exact forall_mem_cons.mpr ⟨h.get? hfirst, ih hothers⟩
  | _ => cases hfound

theorem Known.elements? {count : Nat} (h : value.Known counters)
    (hfound : value.elements? count = some elements) :
    ∀ element ∈ elements, element.Known counters := by
  induction count generalizing value elements with
  | zero =>
    unfold Value.elements? at hfound
    split at hfound
    · split at hfound
      · cases hfound
        simp
      · cases hfound
    · rename_i hcount
      cases hcount
    · cases hfound
  | succ count ih =>
    unfold Value.elements? at hfound
    split at hfound
    · rename_i hcount
      cases hcount
    · rename_i hcount
      cases hcount
      split at hfound
      · split at hfound
        · rename_i head tail hhead htail
          obtain ⟨others, hothers, rfl⟩ := map_eq_some_iff.mp hfound
          have hfields := h.argument
          exact forall_mem_cons.mpr ⟨hfields.get? hhead, ih (hfields.get? htail) hothers⟩
        · cases hfound
      · cases hfound
    · cases hfound

end Value

/-! ## Bases -/

mutual

def DynamicBasis.stamps : DynamicBasis → List Stamp
  | ⟨_, values, structures, _, _⟩ =>
    (values.flatMap fun entry => entry.2.value.stamps) ++ stampsIn structures

def DynamicBasis.stampsIn : List (String × DynamicBasis) → List Stamp
  | [] => []
  | (_, basis) :: rest => basis.stamps ++ stampsIn rest

end

namespace DynamicBasis

def Known (counters : Counters) (basis : DynamicBasis) : Prop :=
  ∀ stamp ∈ basis.stamps, counters.Gave stamp

variable {counters : Counters}

private theorem forall_stampsIn :
    (∀ stamp ∈ stampsIn structures, counters.Gave stamp) ↔
      ∀ entry ∈ structures, entry.2.Known counters := by
  induction structures with
  | nil => simp [stampsIn]
  | cons entry structures ih =>
    simp only [stampsIn, forall_mem_append, forall_mem_cons, ih]
    rfl

theorem known_iff {basis : DynamicBasis} : basis.Known counters ↔
      (∀ entry ∈ basis.values, entry.2.value.Known counters) ∧
        ∀ entry ∈ basis.structures, entry.2.Known counters := by
  obtain ⟨types, values, structures, signatures, functors⟩ := basis
  simp only [Known, stamps, forall_mem_append, forall_mem_flatMap, forall_stampsIn]
  rfl

@[simp] theorem known_empty : DynamicBasis.Known counters {} := by
  rw [known_iff]
  simp

namespace Known

variable {basis other : DynamicBasis} (h : basis.Known counters)
include h

theorem later {later : Counters} (hle : counters ≤ later) : basis.Known later :=
  fun stamp hstamp => (h stamp hstamp).later hle

theorem value {value : DynamicValue} (hfound : Table.get? basis.values name = some value) :
    value.value.Known counters :=
  (known_iff.mp h).1 _ (mem_of_get? hfound)

theorem struct {inner : DynamicBasis} (hfound : Table.get? basis.structures name = some inner) :
    inner.Known counters :=
  (known_iff.mp h).2 _ (mem_of_get? hfound)

theorem congr (hvalues : other.values = basis.values)
    (hstructures : other.structures = basis.structures) : other.Known counters := by
  rw [known_iff] at h ⊢
  rwa [hvalues, hstructures]

theorem orElse (hother : other.Known counters) : (basis.orElse other).Known counters := by
  rw [known_iff] at h hother ⊢
  constructor
  · exact fun entry hentry => (mem_of_mem_orElse hentry).elim (h.1 entry) (hother.1 entry)
  · exact fun entry hentry => (mem_of_mem_orElse hentry).elim (h.2 entry) (hother.2 entry)

theorem settled : basis.settled.Known counters := by
  rw [known_iff] at h ⊢
  exact ⟨fun entry hentry => h.1 entry (mem_of_mem_filter hentry), h.2⟩

end Known

theorem known_findIn (h : ∀ entry ∈ structures, entry.2.Known counters) {path : List String}
    {found : DynamicBasis} (hfound : findIn structures path = some found) :
    found.Known counters := by
  fun_induction findIn structures path with
  | case1 => cases hfound
  | case2 structures name => exact h _ (mem_of_get? hfound)
  | case3 structures name rest _ basis hbasis ih =>
    exact ih (known_iff.mp (h _ (mem_of_get? hbasis))).2 hfound
  | case4 => cases hfound

mutual

theorem Known.restrict {basis : DynamicBasis} (h : basis.Known counters)
    (interface : Interface) : (basis.restrict interface).Known counters := by
  obtain ⟨types, values, structures, signatures, functors⟩ := basis
  obtain ⟨hvalues, hstructures⟩ := known_iff.mp h
  rw [restrict, known_iff]
  constructor
  · intro entry hentry
    obtain ⟨shown, -, hshown⟩ := mem_filterMap.mp hentry
    obtain ⟨value, hvalue, rfl⟩ := map_eq_some_iff.mp hshown
    exact hvalues (shown.1, value) (mem_of_get? hvalue)
  · exact known_restrictIn hstructures interface.structures

theorem known_restrictIn {structures : List (String × DynamicBasis)}
    (h : ∀ entry ∈ structures, entry.2.Known counters) (shown : List (String × Interface)) :
    ∀ entry ∈ restrictIn structures shown, entry.2.Known counters := by
  cases structures with
  | nil => simp [restrictIn]
  | cons entry structures =>
    obtain ⟨name, basis⟩ := entry
    have hothers : ∀ entry ∈ structures, entry.2.Known counters :=
      fun entry hentry => h entry (by simp [hentry])
    have hrest := known_restrictIn hothers shown
    rw [restrictIn]
    split
    · exact forall_mem_cons.mpr ⟨Known.restrict (h (name, basis) (by simp)) _, hrest⟩
    · exact hrest

end

end DynamicBasis

/-! ## Faults -/

/-- What gives something known, and where it fails does so for another reason
than a reference without a cell. -/
def Safe {α : Type} (K : α → Prop) : Except EvalError α → Prop
  | .ok value => K value
  | .error error => ∀ address, error.cause ≠ .dangling address

theorem Safe.bind {α β : Type} {K : α → Prop} {L : β → Prop} {action : Except EvalError α}
    {next : α → Except EvalError β} (h : Safe K action)
    (hnext : ∀ value, K value → Safe L (next value)) : Safe L (action >>= next) := by
  cases action with
  | ok value => exact hnext value h
  | error error => exact h

theorem safe_undefined {α : Type} {K : α → Prop} (entity : Entity) (name : String) (span : Span) :
    Safe K (.error { cause := .undefined entity name, span }) :=
  fun _ => nofun

namespace Interface

variable (tree : ScopeTree) (scope : Scope)

mutual

theorem safe_ofSignature (signature : SigExp) :
    Safe (fun _ => True) (ofSignature tree scope signature) := by
  cases signature with
  | sig specs span => exact safe_addSpecs specs _
  | name name span =>
    rw [ofSignature]
    split
    · trivial
    · exact safe_undefined _ _ _
  | whereType body parameters name type span =>
    exact safe_ofSignature body

theorem safe_addSpec (spec : Spec) (interface : Interface) :
    Safe (fun _ => True) (addSpec tree scope spec interface) := by
  cases spec with
  | replicate name target span =>
    rw [addSpec]
    split
    · trivial
    · exact safe_undefined _ _ _
  | substructure name body span =>
    exact (safe_ofSignature body).bind fun _ _ => trivial
  | included body span =>
    exact (safe_ofSignature body).bind fun _ _ => trivial
  | _ => trivial

theorem safe_addSpecs (specs : List Spec) (interface : Interface) :
    Safe (fun _ => True) (addSpecs tree scope specs interface) := by
  cases specs with
  | nil => trivial
  | cons spec specs =>
    exact (safe_addSpec spec interface).bind fun interface _ => safe_addSpecs specs interface

end

end Interface

/-! ## Matching -/

def MatchEnv.Known (counters : Counters) (env : MatchEnv) : Prop :=
  ∀ address < counters.cells, ∃ value, env.load? address = some value ∧ value.Known counters

def Bindings.Known (counters : Counters) (bound : Bindings) : Prop :=
  ∀ entry ∈ bound, entry.2.Known counters

theorem Bindings.Known.add {bound : Bindings} (h : bound.Known counters) (name : String)
    {value : Value} (hvalue : value.Known counters) :
    Bindings.Known counters (bound ++ [(name, value)]) := by
  intro entry hentry
  rcases mem_append.mp hentry with hentry | hentry
  · exact h entry hentry
  · rw [mem_singleton.mp hentry]
    exact hvalue

namespace Pat

variable {counters : Counters} {env : MatchEnv}

mutual

/-- A pattern binds parts of a known value, and finds the cells of the
references in it. -/
theorem safe_matchFrom (henv : env.Known counters) (pattern : Pat) {value : Value}
    (hvalue : value.Known counters) {bound : Bindings} (hbound : bound.Known counters) :
    Safe (fun result => result.bound.Known counters) (pattern.matchFrom env value bound) := by
  cases pattern with
  | wildcard | const => exact hbound
  | name long span =>
    rw [matchFrom]
    split
    · exact hbound
    · split
      · exact hbound.add _ hvalue
      · exact safe_undefined _ _ _
  | record fields complete span =>
    cases value with
    | record values => exact safe_matchFields henv fields hvalue hbound
    | _ => exact hbound
  | tuple elements span =>
    rw [matchFrom]
    split
    · rename_i values hvalues
      split
      · exact safe_matchList henv elements (hvalue.asTuple? hvalues) hbound
      · exact hbound
    · exact hbound
  | list elements span =>
    rw [matchFrom]
    split
    · rename_i values hvalues
      exact safe_matchList henv elements (hvalue.elements? hvalues) hbound
    · exact hbound
  | con long argument span =>
    rw [matchFrom]
    split
    · exact safe_undefined _ _ _
    · split
      · split
        · exact safe_matchFrom henv argument hvalue.argument hbound
        · exact hbound
      · split
        · exact safe_matchFrom henv argument ((Value.known_exn.mp hvalue).2 _ rfl) hbound
        · exact hbound
      · -- The reference has a cell, so there is no fault here.
        rename_i address _
        obtain ⟨inside, hload, hinside⟩ := henv address (Value.known_reference.mp hvalue)
        rw [hload]
        exact safe_matchFrom henv argument hinside hbound
      · exact hbound
  | typed pattern annotation span =>
    exact safe_matchFrom henv pattern hvalue hbound
  | layered whole annotation pattern span =>
    refine (safe_matchFrom henv pattern hvalue hbound).bind fun result hresult => ?_
    split
    · exact hresult.add _ hvalue
    · exact hresult

theorem safe_matchList (henv : env.Known counters) (patterns : List Pat)
    {values : List Value} (hvalues : ∀ value ∈ values, value.Known counters)
    {bound : Bindings} (hbound : bound.Known counters) :
    Safe (fun result => result.bound.Known counters) (matchList env patterns values bound) := by
  cases patterns with
  | nil => exact hbound
  | cons pattern patterns =>
    cases values with
    | nil => exact hbound
    | cons value values =>
      refine (safe_matchFrom henv pattern (hvalues value (by simp))
        hbound).bind fun result hresult => ?_
      split
      · exact safe_matchList henv patterns
          (fun value hvalue => hvalues value (by simp [hvalue])) hresult
      · exact hresult

theorem safe_matchFields (henv : env.Known counters) (patterns : List (String × Pat))
    {values : List (String × Value)} (hvalues : (Value.record values).Known counters)
    {bound : Bindings} (hbound : bound.Known counters) :
    Safe (fun result => result.bound.Known counters) (matchFields env patterns values bound) := by
  cases patterns with
  | nil => exact hbound
  | cons entry patterns =>
    obtain ⟨label, pattern⟩ := entry
    rw [matchFields]
    split
    · exact hbound
    · rename_i value hfound
      refine (safe_matchFrom henv pattern (hvalues.get? hfound) hbound).bind
        fun result hresult => ?_
      split
      · exact safe_matchFields henv patterns hvalues hresult
      · exact hresult

end

theorem safe_matchValue (henv : env.Known counters) (pattern : Pat)
    {value : Value} (hvalue : value.Known counters) :
    Safe (fun result => result.bound.Known counters) (pattern.matchValue env value) :=
  safe_matchFrom henv pattern hvalue (by simp [Bindings.Known])

end Pat

theorem safe_firstRule? {env : MatchEnv} (henv : env.Known counters) {value : Value}
    (hvalue : value.Known counters) (rules : List (Rule Expr)) :
    Safe (fun choice => ∀ chosen ∈ choice, chosen.1.Known counters)
      (firstRule? env value rules) := by
  induction rules with
  | nil => simp [firstRule?, Safe]
  | cons rule rules ih =>
    refine (Pat.safe_matchValue henv rule.pattern hvalue).bind fun result hresult => ?_
    split
    · rintro _ ⟨⟩
      exact hresult
    · exact ih

end Sml
