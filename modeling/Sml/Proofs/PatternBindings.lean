import Sml.Proofs.ElaborationGrowth
import Sml.Proofs.Matching
import Sml.Proofs.Nonexpansive

/-!
# The names that a pattern binds

Elaborating a pattern and matching a value against it tell constructors from
variables by tables of their own.  Each binds the names that the pattern has
for the constructors it knows, in order of appearance, and elaboration refuses
a name that comes twice.
-/

namespace Sml

open List Prod Pat

namespace Pat

section Names

variable (isConstructor : LongName → Bool)

mutual

def names : Pat → List String
  | .wildcard _ | .const _ _ => []
  | .name long _ => if isConstructor long then [] else [long.name]
  | .record fields _ _ => namesOfFields fields
  | .tuple elements _ | .list elements _ => namesOfList elements
  | .con _ argument _ => names argument
  | .typed pattern _ _ => names pattern
  | .layered whole _ pattern _ => names pattern ++ [whole]

def namesOfList : List Pat → List String
  | [] => []
  | pattern :: rest => names pattern ++ namesOfList rest

def namesOfFields : List (String × Pat) → List String
  | [] => []
  | (_, pattern) :: rest => names pattern ++ namesOfFields rest

end

end Names

/-! ## Matching -/

theorem length_of_elements? {count : Nat} {value : Value} {values : List Value}
    (h : value.elements? count = some values) : values.length = count := by
  fun_induction Value.elements? generalizing values with
  | case1 =>
    cases h
    rfl
  | case3 count fields head tail hhead htail ih =>
    obtain ⟨rest, hrest, rfl⟩ := Option.map_eq_some_iff.mp h
    simp [ih hrest]
  | _ => cases h

variable {env : MatchEnv} {bound : Bindings} {result : MatchResult}

def Adds (names : List String) (bound : Bindings) (outcome : Except EvalError MatchResult) : Prop :=
  ∀ result, outcome = .ok result → result.matched = true →
    result.bound.map fst = bound.map fst ++ names

namespace Adds

variable {names more : List String} {outcome : Except EvalError MatchResult}

theorem fails : Adds names bound (.ok ⟨false, bound⟩) := by
  rintro _ ⟨⟩ ⟨⟩

theorem error (error : EvalError) : Adds names bound (.error error) := by
  rintro _ ⟨⟩

theorem bind {next : MatchResult → Except EvalError MatchResult} (h : Adds names bound outcome)
    (hnext : ∀ result, Adds more result.bound (next result)) :
    Adds (names ++ more) bound (outcome >>= fun result =>
      if result.matched then next result else pure result) := by
  intro result hresult hmatched
  cases houtcome : outcome with
  | error error =>
    rw [houtcome] at hresult
    cases hresult
  | ok middle =>
    rw [houtcome] at hresult
    replace hresult : (if middle.matched then next middle else pure middle) = .ok result := hresult
    split at hresult
    · rename_i hmiddle
      rw [hnext middle result hresult hmatched, h middle houtcome hmiddle, append_assoc]
    · rename_i hmiddle
      cases hresult
      exact absurd hmatched hmiddle

end Adds

section Match

variable (env : MatchEnv)

mutual

theorem adds_matchFrom (pattern : Pat) (value : Value) (bound : Bindings) :
    Adds (pattern.names fun long => (env.constructor? long).isSome) bound
      (pattern.matchFrom env value bound) := by
  cases pattern with
  | wildcard span | const constant span =>
    rintro _ ⟨⟩ -
    simp [names]
  | name long span =>
    rw [matchFrom]
    cases hfound : env.constructor? long with
    | some constructor =>
      rintro _ ⟨⟩ -
      simp [names, hfound]
    | none =>
      dsimp only
      split
      · rintro _ ⟨⟩ -
        simp [names, hfound]
      · exact .error _
  | record fields complete span =>
    rw [matchFrom.eq_def, names]
    cases value with
    | record values => exact adds_matchFields fields values bound
    | _ => exact .fails
  | tuple elements span =>
    rw [matchFrom, names]
    split
    · split
      · exact adds_matchList elements ‹_› bound
      · exact .fails
    · exact .fails
  | list elements span =>
    rw [matchFrom, names]
    split
    · rename_i values hvalues
      exact adds_matchList elements (length_of_elements? hvalues) bound
    · exact .fails
  | con long argument span =>
    rw [matchFrom, names]
    split
    · exact .error _
    · split
      · split
        · exact adds_matchFrom argument _ bound
        · exact .fails
      · split
        · exact adds_matchFrom argument _ bound
        · exact .fails
      · split
        · exact adds_matchFrom argument _ bound
        · exact .error _
      · exact .fails
  | typed pattern annotation span =>
    exact adds_matchFrom pattern value bound
  | layered whole annotation pattern span =>
    refine (adds_matchFrom pattern value bound).bind fun result => ?_
    rintro _ ⟨⟩ -
    simp

theorem adds_matchList (patterns : List Pat) {values : List Value}
    (hlength : values.length = patterns.length) (bound : Bindings) :
    Adds (namesOfList (fun long => (env.constructor? long).isSome) patterns)
      bound (matchList env patterns values bound) := by
  cases patterns with
  | nil =>
    rw [matchList.eq_def, namesOfList]
    rintro _ ⟨⟩ -
    simp
  | cons pattern rest =>
    cases values with
    | nil => simp at hlength
    | cons value values =>
      exact (adds_matchFrom pattern value bound).bind fun result =>
        adds_matchList rest (by simpa using hlength) result.bound

theorem adds_matchFields (patterns : List (String × Pat))
    (values : List (String × Value)) (bound : Bindings) :
    Adds (namesOfFields (fun long => (env.constructor? long).isSome) patterns)
      bound (matchFields env patterns values bound) := by
  cases patterns with
  | nil =>
    rw [matchFields, namesOfFields]
    rintro _ ⟨⟩ -
    simp
  | cons entry rest =>
    obtain ⟨label, pattern⟩ := entry
    rw [matchFields, namesOfFields]
    split
    · exact .fails
    · exact (adds_matchFrom pattern _ bound).bind fun result =>
        adds_matchFields rest values result.bound

end

end Match

end Pat

/-! ## Elaboration -/

namespace Elab

def looking (tree : ScopeTree) : Invariant ElabError ElabState Unit where
  holds state := state.tree = tree
  measure _ := ()
  fails _ _ := True

/-- The variables with names added, which are new if none came twice. -/
def Lists (names : List String) (before after : Bound) : Prop :=
  after.map fst = before.map fst ++ names ∧
    ((before.map fst).Nodup → (after.map fst).Nodup)

theorem Lists.trans {names more : List String} {before middle after : Bound}
    (hfirst : Lists names before middle) (hsecond : Lists more middle after) :
    Lists (names ++ more) before after :=
  ⟨by rw [hsecond.1, hfirst.1, append_assoc], hsecond.2 ∘ hfirst.2⟩

theorem Lists.refl (bound : Bound) : Lists [] bound bound := ⟨by simp, id⟩

def SameTree (before after : ElabState) : Prop := after.tree = before.tree

instance : IsPreorder ElabState SameTree where
  refl _ := rfl
  trans _ _ _ hfirst hsecond := hsecond.trans hfirst

section Looking

variable {α β : Type} {tree : ScopeTree} {scope : Scope}

theorem looking_of_advances {action : Elab α} (h : Advances SameTree action) :
    (looking tree).Keeps () action := by
  intro state hstate _
  have hleaves : (leaves action state).tree = state.tree := h state
  rw [leaves] at hleaves
  cases haction : action state <;> rw [haction] at hleaves <;>
    exact ⟨hleaves.trans hstate, le_rfl, trivial⟩

theorem looking_look_bind {f : ScopeTree → α} {next : α → Elab β} {P : Unit → β → Prop}
    (h : (looking tree).Ensures () P (next (f tree))) :
    (looking tree).Ensures () P (look f >>= next) := by
  rintro state rfl hbound
  exact h state rfl hbound

theorem looking_failAt {P : Unit → α → Prop} (span : Span) (cause : ElabCause) :
    (looking tree).Ensures () P (failAt span cause) :=
  .throw fun _ _ => trivial

theorem looking_fresh : (looking tree).Keeps () fresh := looking_of_advances fun _ => rfl

theorem looking_unify (left right : Ty) (span : Span) (context : ClashContext) :
    (looking tree).Keeps () (unify scope left right span context) := by
  refine looking_of_advances fun state => ?_
  rw [SameTree, leaves, unify, get_bind_apply]
  cases Ty.merge (state.tree.typeEnv scope) state.store left right with
  | ok result => rfl
  | error fault => cases fault <;> rfl

theorem looking_instantiateScheme (scheme : Ty) :
    (looking tree).Keeps () (instantiateScheme scheme) :=
  looking_of_advances (advances_instantiateScheme (fun _ _ => rfl) scheme)

theorem looking_bindVariable (before : Bound) (name : String) (type : Ty) (span : Span) :
    (looking tree).Ensures () (fun _ => Lists [name] before)
      (bindVariable before name type span) := by
  refine .ite (fun _ => looking_failAt _ _) fun hnew => .pure fun _ _ => ?_
  refine ⟨by simp, fun hnodup => ?_⟩
  rw [map_append, nodup_append]
  refine ⟨hnodup, by simp, ?_⟩
  simp only [any_eq_true, beq_iff_eq, not_exists, not_and] at hnew
  simp only [mem_map, map_cons, map_nil, mem_singleton]
  rintro _ ⟨entry, hentry, rfl⟩ _ rfl
  exact hnew entry hentry

mutual

theorem looking_patternFrom (pattern : Pat) (before : Bound) :
    (looking tree).Ensures () (fun _ result =>
        Lists (pattern.names (tree.isStaticConstructor scope)) before result.2)
      (patternFrom scope pattern before) := by
  cases pattern with
  | wildcard span =>
    exact looking_fresh.bind fun _ _ _ _ => .pure fun _ _ => .refl before
  | const value span =>
    cases value with
    | real value => exact looking_failAt _ _
    | _ => exact .pure fun _ _ => .refl before
  | name long span =>
    rw [names, ScopeTree.isStaticConstructor, ← Option.isSome_filter]
    refine looking_look_bind ?_
    cases (tree.staticValue? scope long.path long.name).filter (·.status.isConstructor) with
    | some value =>
      refine (looking_instantiateScheme _).bind fun _ _ type _ => ?_
      cases type with
      | arrow parameter result => exact looking_failAt _ _
      | _ => exact .pure fun _ _ => .refl before
    | none =>
      refine .ite (fun _ => ?_) fun _ => looking_failAt _ _
      refine looking_fresh.bind fun _ _ type _ => ?_
      exact (looking_bindVariable before long.name type span).bind fun _ _ _ h => .pure fun _ _ => h
  | record fields complete span =>
    refine (looking_patternFields span fields [] before).bind fun _ _ result hresult => ?_
    refine .ite (fun _ => .pure fun _ _ => hresult) fun _ => ?_
    have hrow : Advances SameTree (freshRecord result.1 span) := fun _ => rfl
    exact (looking_of_advances hrow).bind fun _ _ _ _ => .pure fun _ _ => hresult
  | tuple elements span =>
    exact (looking_patternList elements before).bind fun _ _ _ hresult => .pure fun _ _ => hresult
  | list elements span =>
    refine looking_fresh.bind fun _ _ element _ => ?_
    exact (looking_patternElements element elements before).bind
      fun _ _ _ hresult => .pure fun _ _ => hresult
  | con long argument span =>
    refine looking_look_bind ?_
    split
    · exact looking_failAt _ _
    · refine .ite (fun _ => ?_) fun _ => looking_failAt _ _
      refine (looking_instantiateScheme _).bind fun _ _ type _ => ?_
      refine (looking_patternFrom argument before).bind fun _ _ inner hinner => ?_
      refine looking_fresh.bind fun _ _ result _ => ?_
      exact (looking_unify _ _ _ _).bind fun _ _ _ _ => .pure fun _ _ => hinner
  | typed pattern annotation span =>
    refine (looking_patternFrom pattern before).bind fun _ _ inner hinner => ?_
    refine (looking_of_advances (advances_type _ _ _)).bind fun _ _ annotation _ => ?_
    exact (looking_unify _ _ _ _).bind fun _ _ _ _ => .pure fun _ _ => hinner
  | layered name annotation pattern span =>
    refine looking_look_bind (.ite (fun _ => looking_failAt _ _) fun _ => ?_)
    refine (looking_patternFrom pattern before).bind fun _ _ inner hinner => ?_
    have hlast : ∀ type, (looking tree).Ensures () (fun _ result =>
        Lists (pattern.names (tree.isStaticConstructor scope) ++ [name]) before result.2)
        (do return (type, ← bindVariable inner.2 name type span)) :=
      fun type => (looking_bindVariable inner.2 name type span).bind
        fun _ _ _ h => .pure fun _ _ => hinner.trans h
    cases annotation with
    | none => exact hlast _
    | some annotation =>
      refine (looking_of_advances (advances_type _ _ _)).bind fun _ _ annotation _ => ?_
      exact (looking_unify _ _ _ _).bind fun _ _ type _ => hlast type

theorem looking_patternList (patterns : List Pat) (before : Bound) :
    (looking tree).Ensures () (fun _ result =>
        Lists (namesOfList (tree.isStaticConstructor scope) patterns) before result.2)
      (patternList scope patterns before) := by
  cases patterns with
  | nil =>
    exact .pure fun _ _ => .refl before
  | cons pattern rest =>
    refine (looking_patternFrom pattern before).bind fun _ _ inner hinner => ?_
    exact (looking_patternList rest inner.2).bind
      fun _ _ _ hrest => .pure fun _ _ => hinner.trans hrest

theorem looking_patternElements (element : Ty) (patterns : List Pat) (before : Bound) :
    (looking tree).Ensures () (fun _ =>
        Lists (namesOfList (tree.isStaticConstructor scope) patterns) before)
      (patternElements scope element patterns before) := by
  cases patterns with
  | nil =>
    exact .pure fun _ _ => .refl before
  | cons pattern rest =>
    refine (looking_patternFrom pattern before).bind fun _ _ inner hinner => ?_
    refine (looking_unify _ _ _ _).bind fun _ _ _ _ => ?_
    exact (looking_patternElements element rest inner.2).mono fun _ _ _ hrest => hinner.trans hrest

theorem looking_patternFields (span : Span) (patterns : List (String × Pat))
    (fields : Table Ty) (before : Bound) :
    (looking tree).Ensures () (fun _ result =>
        Lists (namesOfFields (tree.isStaticConstructor scope) patterns) before result.2)
      (patternFields scope span patterns fields before) := by
  cases patterns with
  | nil =>
    exact .pure fun _ _ => .refl before
  | cons entry rest =>
    obtain ⟨label, pattern⟩ := entry
    refine (looking_patternFrom pattern before).bind fun _ _ inner hinner => ?_
    refine .ite (fun _ => looking_failAt _ _) fun _ => ?_
    exact (looking_patternFields span rest _ inner.2).mono fun _ _ _ hrest => hinner.trans hrest

end

end Looking

/-- If elaboration and evaluation agree on which names are constructors, what
a pattern binds when it matches are the variables that elaboration found in
it, in the same order, and no name is among them twice. -/
theorem names_bound_of_pattern {state state' : ElabState} {scope : Scope} {pattern : Pat}
    {type : Ty} {typed : Bound} {value : Value} {bound : Bindings}
    (hagree : ∀ long : LongName, state.tree.isStaticConstructor scope long =
      ((state.tree.matchEnv scope).constructor? long).isSome)
    (htyped : Elab.pattern scope pattern state = .ok (type, typed) state')
    (hmatched : pattern.matchValue (state.tree.matchEnv scope) value = .ok ⟨true, bound⟩) :
    bound.map fst = typed.map fst ∧ (typed.map fst).Nodup := by
  have hstatic : (looking state.tree).Ensures () _
      (Elab.pattern scope pattern) := looking_patternFrom pattern []
  have hnames := hstatic state rfl le_rfl
  rw [htyped] at hnames
  have hdynamic := adds_matchFrom _ pattern value [] _ hmatched rfl
  refine ⟨?_, hnames.2.2.2 .nil⟩
  rw [hdynamic, hnames.2.2.1, funext hagree]
  rfl

def nestedPattern : Pat := .tuple [.name (.simple "z") {},
    .layered "y" none (.name (.simple "x") {}) {}, .name (.simple "B") {}] {}

theorem names_bound_nestedPattern : ∃ type typed state bound,
      Elab.pattern .root nestedPattern { tree := Eval.twoConstructors } = .ok (type, typed) state ∧
      nestedPattern.matchValue (Eval.twoConstructors.matchEnv .root)
        (.tuple [.int 1, .int 2, .constructed "B" none]) = .ok ⟨true, bound⟩ ∧
      typed.map fst = ["z", "x", "y"] ∧
      bound.map fst = typed.map fst ∧
      (typed.map fst).Nodup := by
  have htyped : Elab.pattern .root nestedPattern { tree := Eval.twoConstructors } =
      .ok (_, _) _ := rfl
  have hmatched : nestedPattern.matchValue (Eval.twoConstructors.matchEnv .root)
      (.tuple [.int 1, .int 2, .constructed "B" none]) = .ok ⟨true, _⟩ := rfl
  refine ⟨_, _, _, _, htyped, hmatched, rfl,
    names_bound_of_pattern (fun long => ?_) htyped hmatched⟩
  obtain rfl | rfl | ⟨hstatic, hdynamic⟩ := Eval.twoConstructors_names long
  · rfl
  · rfl
  · simp [hstatic, hdynamic, ScopeTree.matchEnv]

end Elab

end Sml
