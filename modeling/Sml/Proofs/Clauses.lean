import Mathlib.Data.List.Induction
import Sml.Proofs.Interfaces
import Sml.Proofs.Nonexpansive
import Sml.Proofs.TupleFields

/-!
# Functions declared by clauses

A function of several arguments is nested in one function for each argument,
and then chooses among its clauses by the tuple of all arguments.  The names
of the arguments hide nothing that is written in the clauses, so the choice is
made, and the body evaluated, as if the patterns of each clause had been
matched where the function was declared.
-/

namespace Sml

open List ScopeTree Table Eval

variable {α : Type} {tree after : ScopeTree} {scope inner : Scope} {name : String}
  {values : List Value} {clauses : List (Clause Expr)} {rule : Clause Expr → Rule Expr}

/-! ## Scopes with names bound in them -/

namespace Frame

def binding (level : Nat) (bound : Bindings) : Frame := bound.foldl
    (fun frame entry => frame.setDynamicValue entry.1 { value := entry.2 })
    { level }

theorem get?_binding (level : Nat) (bound : Bindings) (name : String) :
    get? (binding level bound).dynamics.values name =
      (get? (ofList bound) name).map fun value => { value } := by
  unfold binding ofList
  induction bound using List.reverseRecOn with
  | nil => rfl
  | append_singleton bound entry ih =>
    simp only [foldl_append, foldl_cons, foldl_nil]
    rw [get?_insert]
    change get? (insert _ entry.1 _) name = _
    rw [get?_insert, ih]
    split <;> rfl

theorem find_binding {find : Frame → Option α} (level : Nat) (bound : Bindings)
    (h : ∀ name value frame, find (setDynamicValue name value frame) = find frame) :
    find (binding level bound) = find { level } := by
  unfold binding
  induction bound using List.reverseRecOn with
  | nil => rfl
  | append_singleton bound entry ih => rw [foldl_append, foldl_cons, foldl_nil, h, ih]

end Frame

theorem ScopeTree.find?_push (hscope : scope.Within tree) (frame : Frame)
    (find : Frame → Option α) :
    (tree.push scope frame).2.find? 0 find (tree.push scope frame).1 =
      (find frame).or (tree.find? 0 find scope) := by
  have hframes : ∀ number ∈ scope, find ((tree.push scope frame).2.frame number) =
        find (tree.frame number) := fun number hnumber => by
    rw [frame_push_of_ne _ _ _ (hscope number hnumber).ne]
  rw [find?_zero, find?_zero, ← findSome?_congr hframes]
  change List.findSome? _ (tree.frames.size :: scope) = _
  rw [findSome?_cons, frame_push]
  cases find frame <;> rfl

/-- The inner scope gives a name what is bound to it, or else what the outer
scope gives, unless the name is hidden.  Everything but the frames is the same
around both. -/
structure Scope.Binds (before : ScopeTree) (scope : Scope)
    (hidden : List String) (bound : Bindings) (after : ScopeTree)
    (inner : Scope) : Prop where
  shared : after = { before with frames := after.frames }
  value : ∀ name, name ∉ hidden → after.dynamicValue? inner [] name =
      ((Table.get? (ofList bound) name).map fun value => { value }).or
        (before.dynamicValue? scope [] name)
  qualified : ∀ first rest name, after.dynamicValue? inner (first :: rest) name =
      before.dynamicValue? scope (first :: rest) name
  type : ∀ long, after.dynamicType? inner long = before.dynamicType? scope long
  struct : ∀ path, after.dynamicStructure? inner path = before.dynamicStructure? scope path
  signature : ∀ name, after.dynamicSignature? inner name = before.dynamicSignature? scope name
  functor : ∀ name, after.dynamicFunctor? inner name = before.dynamicFunctor? scope name

variable {value : Value}

namespace Scope.Binds

variable {before after : ScopeTree} {scope inner : Scope} {hidden : List String} {bound : Bindings}

theorem refl (tree : ScopeTree) (scope : Scope) (hidden : List String) :
    Binds tree scope hidden [] tree scope :=
  ⟨rfl, fun _ _ => rfl, fun _ _ _ => rfl, fun _ => rfl, fun _ => rfl, fun _ => rfl, fun _ => rfl⟩

theorem hide (h : Binds before scope hidden [(name, value)] after inner) :
    Binds before scope (hidden ++ [name]) [] after inner := by
  refine { h with value := fun other hother => ?_ }
  simp only [mem_append, mem_singleton, not_or] at hother
  rw [h.value other hother.1]
  simp [ofList, Table.insert, Table.get?, Ne.symm hother.2]

theorem push (h : Binds before scope hidden [] after inner)
    (hinner : inner.Within after) (level : Nat) (bound : Bindings) :
    Binds before scope hidden bound (after.push inner (.binding level bound)).2
      (after.push inner (.binding level bound)).1 := by
  -- Only the values of the new frame are looked at.
  have hother : ∀ {α : Type} {find : Frame → Option α},
      (∀ name value frame, find (Frame.setDynamicValue name value frame) =
        find frame) → find { level } = none →
      (after.push inner (.binding level bound)).2.find? 0 find
        (after.push inner (.binding level bound)).1 = after.find? 0 find inner := by
    intro α find hvalues hempty
    rw [find?_push hinner, Frame.find_binding level bound hvalues, hempty, Option.none_or]
  have hstruct : ∀ path, (after.push inner (.binding level bound)).2.dynamicStructure?
        (after.push inner (.binding level bound)).1 path = after.dynamicStructure? inner path := by
    intro path
    cases path with
    | nil => rfl
    | cons first rest => rw [dynamicStructure?, dynamicStructure?, hother (fun _ _ _ => rfl) rfl]
  refine ⟨?_, fun name hname => ?_, fun first rest name => ?_, fun long => ?_,
    fun path => ?_, fun name => ?_, fun name => ?_⟩
  · rw [ScopeTree.push, h.shared]
  · rw [dynamicValue?, find?_push hinner, Frame.get?_binding]
    have hvalue := h.value name hname
    rw [dynamicValue?] at hvalue
    rw [hvalue]
    rfl
  · simp only [dynamicValue?, hstruct, h.struct]
  · rw [← h.type, dynamicType?, dynamicType?, hstruct,
      dynamicTypeWhere?, hother (fun _ _ _ => rfl) rfl]
    rfl
  · rw [hstruct, h.struct]
  · rw [← h.signature]
    exact hother (fun _ _ _ => rfl) rfl
  · rw [← h.functor]
    exact hother (fun _ _ _ => rfl) rfl

end Scope.Binds

/-! ## The functions of the arguments -/

theorem Eval.look_bind_apply {β : Type} (f : ScopeTree → α) (next : α → Eval β) (tree : ScopeTree) :
    (look f >>= next) tree = next (f tree) tree :=
  rfl

/-- The arguments are bound to their names, which hide nothing else. -/
structure Scope.Passed (before : ScopeTree) (scope : Scope)
    (names : List String) (values : List Value) (after : ScopeTree)
    (inner : Scope) : Prop where
  within : inner.Within after
  binds : Scope.Binds before scope names [] after inner
  arguments : names.map (after.dynamicValue? inner []) = values.map fun value => some { value }

namespace Scope.Passed

variable {before after : ScopeTree} {scope inner : Scope}
  {names : List String} {values : List Value} {name : String}

section

variable (h : Passed before scope names values after inner)
include h

theorem constructor? (hname : name ∉ names) :
    (after.matchEnv inner).constructor? (.simple name) =
      (before.matchEnv scope).constructor? (.simple name) := by
  simp only [matchEnv, LongName.simple, h.binds.value name hname]
  rfl

theorem push (hname : name ∉ names) (level : Nat) (value : Value) :
    Passed before scope (names ++ [name]) (values ++ [value])
      (after.push inner (.binding level [(name, value)])).2
      (after.push inner (.binding level [(name, value)])).1 := by
  have hbinds := h.binds.push h.within level [(name, value)]
  refine ⟨?_, hbinds.hide, ?_⟩
  · intro number hnumber
    simp only [ScopeTree.push, mem_cons, Array.size_push] at hnumber ⊢
    rcases hnumber with rfl | hnumber
    · omega
    · exact (h.within number hnumber).trans (Nat.lt_succ_self _)
  · have hlook := fun other => ((Scope.Binds.refl after inner []).push h.within
      level [(name, value)]).value other (by simp)
    rw [map_append, map_append, ← h.arguments]
    congr 1
    · refine map_congr_left fun other hother => ?_
      have hne : name ≠ other := fun heq => hname (heq ▸ hother)
      simp [hlook, ofList, Table.insert, Table.get?, hne]
    · simp [hlook, ofList, Table.insert, Table.get?]

/-- Patterns are matched as outside, if no name of an argument is a
constructor there. -/
theorem matchEnv_eq
    (hnames : ∀ name ∈ names, (before.matchEnv scope).constructor? (.simple name) = none) :
    after.matchEnv inner = before.matchEnv scope := by
  have hload : after.load? = before.load? := by
    rw [h.binds.shared]
    rfl
  have hconstructor : (after.matchEnv inner).constructor? =
      (before.matchEnv scope).constructor? := by
    funext ⟨path, name⟩
    cases path with
    | cons first rest => simp only [matchEnv, h.binds.qualified first rest name]
    | nil =>
      by_cases hname : name ∈ names
      · have hvalue := mem_map_of_mem (f := after.dynamicValue? inner []) hname
        rw [h.arguments] at hvalue
        obtain ⟨value, -, hvalue⟩ := mem_map.mp hvalue
        refine Eq.trans ?_ (hnames name hname).symm
        simp only [matchEnv, ← hvalue]
        rfl
      · exact h.constructor? hname
  rw [matchEnv] at hconstructor ⊢
  rw [matchEnv] at hconstructor ⊢
  simp only at hconstructor
  rw [hconstructor, hload]

end

end Scope.Passed

namespace FunBind

def function (span : Span) (name : String) (body : Expr) : Match Expr :=
  ⟨[⟨.var name span, body⟩], span⟩

def nest (span : Span) (names : List String) (body : Expr) : Expr :=
  names.foldr (fun name body => .fn (function span name body) span) body

section Arguments

variable {before after : ScopeTree} {scope inner : Scope} {names : List String}

theorem applyValue_function (hname : (after.matchEnv inner).constructor? (.simple name) = none)
    (span : Span) (body : Expr) (steps : Nat) (value : Value) :
    applyValue (steps + 2) (.closure (function span name body) inner) value after = evalExpr steps
        (after.push inner (.binding (after.level inner + 1) [(name, value)])).1 body
        (after.push inner (.binding (after.level inner + 1) [(name, value)])).2 := by
  have hrule : firstRule? (after.matchEnv inner) value
      (function span name body).rules = .ok (some ([(name, value)], body)) := by
    simp only [function, firstRule?, Pat.matchValue, Pat.var, Pat.matchFrom, hname]
    rfl
  rw [applyValue, evalMatch, look_bind_apply, hrule]
  rfl

theorem exists_passed {given : List Value} {others : List String}
    (h : Scope.Passed before scope names given after inner) (hdistinct : (names ++ others).Nodup)
    (hnames : ∀ name ∈ others, (before.matchEnv scope).constructor? (.simple name) = none)
    (hvalues : values.length ≤ others.length) (span : Span) (body : Expr) (steps : Nat) :
    ∃ after' inner', Scope.Passed before scope (names ++ others.take values.length)
        (given ++ values) after' inner' ∧
      (evalExpr (steps + 1) inner (nest span others body) >>= fun function =>
          values.foldlM (applyValue (steps + 3)) function) after =
        evalExpr (steps + 1) inner' (nest span (others.drop values.length) body) after' := by
  induction values generalizing names given others after inner with
  | nil => exact ⟨after, inner, by simpa using h, by simp⟩
  | cons value values ih =>
    cases others with
    | nil => simp at hvalues
    | cons first others =>
      have hfirst : first ∉ names := fun hin =>
        (nodup_append.mp hdistinct).2.2 first hin first (by simp) rfl
      have hstep := applyValue_function
        ((h.constructor? hfirst).trans (hnames first (by simp))) span
        (nest span others body) (steps + 1) value
      obtain ⟨after', inner', hpassed, hrun⟩ := ih (h.push hfirst (after.level inner + 1) value)
          (by simpa using hdistinct)
          (fun name hname => hnames name (mem_cons_of_mem _ hname))
          (by simpa using hvalues)
      refine ⟨after', inner', by simpa using hpassed, ?_⟩
      refine Eq.trans ?_ hrun
      change EStateM.bind _ _ _ = EStateM.bind _ _ _
      rw [EStateM.bind, EStateM.bind, ← hstep]
      rfl

theorem mapM_names (h : names.map (after.dynamicValue? inner []) =
      values.map fun value => some { value }) (span : Span) (steps : Nat) :
    (names.map fun name => Expr.var name span).mapM
        (evalExpr (steps + 1) inner) after = .ok values after := by
  induction names generalizing values with
  | nil =>
    cases values with
    | nil => rfl
    | cons value values => cases h
  | cons name names ih =>
    cases values with
    | nil => cases h
    | cons value values =>
      simp only [map_cons, List.cons.injEq] at h
      have hname : evalExpr (steps + 1) inner (.var name span) after = .ok value after := by
        rw [Expr.var, evalExpr, look_bind_apply, LongName.simple, h.1]
        rfl
      rw [map_cons, mapM_cons, bind_apply_of_ok hname, bind_apply_of_ok (ih h.2)]
      rfl

end Arguments

/-! ## The choice among the clauses -/

/-- The first clause whose patterns match the values from left to right, with
what they bind. -/
def firstClause? (env : MatchEnv) (values : List Value) :
    List (Clause Expr) → Except EvalError (Option (Bindings × Clause Expr))
  | [] => .ok none
  | clause :: rest => do
    let result ← Pat.matchList env clause.patterns values []
    if result.matched then return some (result.bound, clause)
    else firstClause? env values rest

theorem matchValue_tuple (env : MatchEnv) {patterns : List Pat}
    (hlength : patterns.length = values.length) (span : Span) :
    (Pat.tuple patterns span).matchValue env (.tuple values) =
      Pat.matchList env patterns values [] := by
  rw [Pat.matchValue, Pat.matchFrom, Value.asTuple?_tuple]
  simp [hlength]

theorem matchList_singleton (env : MatchEnv) (pattern : Pat) (value : Value) :
    Pat.matchList env [pattern] [value] [] = pattern.matchValue env value := by
  rw [Pat.matchList, Pat.matchValue]
  cases pattern.matchFrom env value [] with
  | error error => rfl
  | ok result =>
    obtain ⟨matched, bound⟩ := result
    cases matched <;> rfl

theorem firstRule?_eq {env : MatchEnv}
    (h : ∀ clause ∈ clauses, (rule clause).body = clause.typedBody ∧
      (rule clause).pattern.matchValue env value = Pat.matchList env clause.patterns values []) :
    firstRule? env value (clauses.map rule) = (firstClause? env values clauses).map
        (Option.map (Prod.map id Clause.typedBody)) := by
  induction clauses with
  | nil => rfl
  | cons clause clauses ih =>
    obtain ⟨hbody, hmatch⟩ := h clause (by simp)
    rw [map_cons, firstRule?, firstClause?, hmatch, hbody,
      ih fun other hother => h other (by simp [hother])]
    cases Pat.matchList env clause.patterns values [] with
    | error error => rfl
    | ok result =>
      obtain ⟨matched, bound⟩ := result
      cases matched <;> rfl

/-- The body of the clause that is chosen is evaluated with what its patterns
bind; without one, `Match` is raised. -/
def Chooses (tree : ScopeTree) (scope : Scope) (hidden : List String)
    (left : Nat) (run : EStateM.Result Interrupt ScopeTree Value) :
    Except EvalError (Option (Bindings × Clause Expr)) → Prop
  | .ok (some (bound, clause)) => ∃ after inner,
      Scope.Binds tree scope hidden bound after inner ∧
        run = evalExpr left inner clause.typedBody after
  | .ok none => ∃ after, after = { tree with frames := after.frames } ∧
      run = .error (.raised BasicExn.match.value) after
  | .error error => ∃ after, after = { tree with frames := after.frames } ∧
      run = .error (.fault error) after

theorem chooses_evalMatch {hidden : List String} {span : Span} (hinner : inner.Within after)
    (hbinds : Scope.Binds tree scope hidden [] after inner)
    (henv : after.matchEnv inner = tree.matchEnv scope)
    (hrules : ∀ clause ∈ clauses, (rule clause).body = clause.typedBody ∧
      (rule clause).pattern.matchValue (tree.matchEnv scope) value =
        Pat.matchList (tree.matchEnv scope) clause.patterns values []) (left : Nat) :
    Chooses tree scope hidden left (evalMatch (left + 1) inner ⟨clauses.map rule, span⟩ value
        BasicExn.match.value after)
      (firstClause? (tree.matchEnv scope) values clauses) := by
  rw [evalMatch, look_bind_apply, henv, firstRule?_eq hrules]
  cases firstClause? (tree.matchEnv scope) values clauses with
  | error error => exact ⟨after, hbinds.shared, rfl⟩
  | ok choice =>
    cases choice with
    | none => exact ⟨after, hbinds.shared, rfl⟩
    | some chosen => exact ⟨_, _, hbinds.push hinner (after.level inner + 1) chosen.1, rfl⟩

/-- The choice among the clauses by the tuple of the arguments. -/
def choice (binding : FunBind Expr) (names : List String) : Expr := .caseOf
    (.tuple (names.map fun name => .var name binding.span) binding.span)
    ⟨binding.clauses.map fun clause =>
      ⟨.tuple clause.patterns clause.span, clause.typedBody⟩, binding.span⟩
    binding.span

def argumentNames (arity : Nat) : List String :=
  (List.range arity).map fun index => argumentName (index + 1)

theorem nodup_argumentNames (arity : Nat) : (argumentNames arity).Nodup := by
  refine List.Nodup.map (fun first second h => ?_) nodup_range
  have htexts := congrArg String.toList h
  simp only [argumentName, String.toList_append, append_cancel_left_eq] at htexts
  have := Ty.toString_injective (String.ext htexts)
  omega

theorem toExpr_of_arity_ne_one {binding : FunBind Expr} (hone : binding.arity ≠ 1) :
    binding.toExpr = nest binding.span (argumentNames binding.arity)
      (binding.choice (argumentNames binding.arity)) := by
  rw [toExpr]
  split
  · contradiction
  · rfl

theorem chooses_choice {binding : FunBind Expr} {names : List String}
    (h : Scope.Passed tree scope names values after inner)
    (hnames : ∀ name ∈ names, (tree.matchEnv scope).constructor? (.simple name) = none)
    (hclauses : ∀ clause ∈ binding.clauses, clause.patterns.length = values.length) (steps : Nat) :
    Chooses tree scope names (steps + 1) (evalExpr (steps + 3) inner (binding.choice names) after)
      (firstClause? (tree.matchEnv scope) values binding.clauses) := by
  have htuple : evalExpr (steps + 2) inner
      (.tuple (names.map fun name => .var name binding.span) binding.span)
      after = .ok (.tuple values) after := by
    rw [evalExpr, bind_apply_of_ok (mapM_names h.arguments _ _)]
    rfl
  rw [choice, evalExpr, bind_apply_of_ok htuple]
  exact chooses_evalMatch h.within h.binds (h.matchEnv_eq hnames) (fun clause hclause => ⟨rfl,
      matchValue_tuple _ (hclauses clause hclause) clause.span⟩) (steps + 1)

section Application

variable {binding : FunBind Expr} {rules : Match Expr} {tree : ScopeTree}
  {scope : Scope} {values : List Value}
  (hrules : binding.toExpr.functionRules? = some rules)
  (hclauses : ∀ clause ∈ binding.clauses, clause.patterns.length = binding.arity)
  (hscope : scope.Within tree)
  (hvalues : values.length = binding.arity)
include hrules hclauses hscope hvalues

theorem chooses_one (hone : binding.arity = 1) (hidden : List String) (steps : Nat) :
    Chooses tree scope hidden (steps + 3)
      (values.foldlM (applyValue (steps + 5)) (.closure rules scope) tree)
      (firstClause? (tree.matchEnv scope) values binding.clauses) := by
  obtain ⟨value, rfl⟩ := length_eq_one_iff.mp (hvalues.trans hone)
  let rule (clause : Clause Expr) : Rule Expr :=
    ⟨clause.patterns.head?.getD (.wildcard {}), clause.typedBody⟩
  have hlist : ∀ clause ∈ binding.clauses, ∃ pattern,
      clause.patterns = [pattern] := fun clause hclause =>
    length_eq_one_iff.mp ((hclauses clause hclause).trans hone)
  have hmap : rules = ⟨binding.clauses.map rule, binding.span⟩ := by
    rw [toExpr, hone] at hrules
    cases hrules
    rw [← filterMap_eq_map]
    congr 1
    refine filterMap_congr fun clause hclause => ?_
    obtain ⟨pattern, hpattern⟩ := hlist clause hclause
    simp [rule, hpattern]
  have hmatch : ∀ clause ∈ binding.clauses, (rule clause).body = clause.typedBody ∧
        (rule clause).pattern.matchValue (tree.matchEnv scope) value =
          Pat.matchList (tree.matchEnv scope) clause.patterns [value] [] := by
    intro clause hclause
    obtain ⟨pattern, hpattern⟩ := hlist clause hclause
    refine ⟨rfl, ?_⟩
    rw [hpattern, matchList_singleton]
    simp [rule, hpattern]
  simp only [foldlM_cons, foldlM_nil, bind_pure]
  rw [applyValue, hmap]
  exact chooses_evalMatch hscope (.refl tree scope hidden) rfl hmatch (steps + 3)

omit hclauses in
theorem exists_passed_applied (harity : 2 ≤ binding.arity)
    (hnames : ∀ name ∈ argumentNames binding.arity,
      (tree.matchEnv scope).constructor? (.simple name) = none)
    {count : Nat} (hcount : count ≤ binding.arity) (steps : Nat) :
    ∃ after inner, Scope.Passed tree scope ((argumentNames binding.arity).take count)
        (values.take count) after inner ∧
      (values.take count).foldlM (applyValue (steps + 3)) (.closure rules scope) tree =
        evalExpr (steps + 1) inner (nest binding.span ((argumentNames binding.arity).drop count)
          (binding.choice (argumentNames binding.arity))) after := by
  have hlength : (values.take count).length = count := by
    rw [length_take]
    omega
  have hstart : Scope.Passed tree scope [] [] tree scope := ⟨hscope, .refl tree scope [], rfl⟩
  obtain ⟨after, inner, hpassed, hrun⟩ := exists_passed hstart
    (by simpa using nodup_argumentNames binding.arity) hnames
    (show (values.take count).length ≤ _ by simpa [argumentNames, hlength])
    binding.span (binding.choice (argumentNames binding.arity)) steps
  rw [hlength] at hpassed hrun
  refine ⟨after, inner, hpassed, Eq.trans ?_ hrun⟩
  -- The function itself is what the nest of functions evaluates to.
  obtain ⟨first, others, hall⟩ := exists_cons_of_length_pos
    (show 0 < (argumentNames binding.arity).length by
      simp [argumentNames]
      omega)
  rw [toExpr_of_arity_ne_one (by omega), hall] at hrules
  cases hrules
  rw [hall]
  rfl

theorem chooses_several (harity : 2 ≤ binding.arity) (hnames : ∀ name ∈ argumentNames binding.arity,
      (tree.matchEnv scope).constructor? (.simple name) = none) (steps : Nat) :
    Chooses tree scope (argumentNames binding.arity) (steps + 1)
      (values.foldlM (applyValue (steps + 5)) (.closure rules scope) tree)
      (firstClause? (tree.matchEnv scope) values binding.clauses) := by
  have hlength : (argumentNames binding.arity).length = binding.arity := by simp [argumentNames]
  obtain ⟨after, inner, hpassed, hrun⟩ := exists_passed_applied hrules hscope
    hvalues harity hnames le_rfl (steps + 2)
  rw [take_of_length_le hlength.le, take_of_length_le hvalues.le] at hpassed
  rw [take_of_length_le hvalues.le, drop_of_length_le hlength.le] at hrun
  rw [hrun]
  exact chooses_choice hpassed hnames
    (fun clause hclause => (hclauses clause hclause).trans hvalues.symm) steps

/-- Giving a function declared by clauses all its arguments evaluates the body
of the first clause whose patterns match them, where every name but those of
the arguments is what the patterns bind to it or else what it was where the
function was declared.  Without such a clause `Match` is raised.  With fewer
arguments nothing but a function is made. -/
theorem chooses_applied (harity : 0 < binding.arity) (hnames : ∀ name ∈ argumentNames binding.arity,
      (tree.matchEnv scope).constructor? (.simple name) = none) (steps : Nat) :
    (∃ left, steps < left ∧ Chooses tree scope (argumentNames binding.arity) left
        (values.foldlM (applyValue (steps + 5)) (.closure rules scope) tree)
        (firstClause? (tree.matchEnv scope) values binding.clauses)) ∧
      ∀ count < binding.arity, ∃ function after, (values.take count).foldlM (applyValue (steps + 5))
          (.closure rules scope) tree = .ok function after ∧
        after = { tree with frames := after.frames } := by
  by_cases hone : binding.arity = 1
  · refine ⟨⟨steps + 3, by omega, chooses_one hrules hclauses hscope hvalues
      hone _ steps⟩, fun count hcount => ?_⟩
    obtain rfl : count = 0 := by omega
    exact ⟨_, tree, rfl, rfl⟩
  · refine ⟨⟨steps + 1, by omega, chooses_several hrules hclauses hscope
      hvalues (by omega) hnames steps⟩, fun count hcount => ?_⟩
    obtain ⟨after, inner, hpassed, hrun⟩ := exists_passed_applied hrules hscope
      hvalues (by omega) hnames hcount.le (steps + 2)
    obtain ⟨next, rest, hdrop⟩ := List.exists_cons_of_length_pos
      (show 0 < ((argumentNames binding.arity).drop count).length by
        simp [argumentNames]
        omega)
    rw [hdrop] at hrun
    exact ⟨_, after, hrun, hpassed.binds.shared⟩

end Application

def twoClauses : FunBind Expr where
  clauses := [⟨"f", [.var "B" {}, .var "x" {}], none, .var "x" {}, {}⟩,
      ⟨"f", [.var "x" {}, .var "y" {}], none, .var "y" {}, {}⟩]
  span := {}

theorem chooses_applied_second : ∃ rules, twoClauses.toExpr.functionRules? = some rules ∧
      firstClause? (twoConstructors.matchEnv .root) [.int 1, .int 2] twoClauses.clauses =
        .ok (some ([("x", .int 1), ("y", .int 2)],
          ⟨"f", [.var "x" {}, .var "y" {}], none, .var "y" {}, {}⟩)) ∧
      (∃ left, 9 < left ∧ Chooses twoConstructors .root (argumentNames 2) left
          ([.int 1, .int 2].foldlM (applyValue 14) (.closure rules Scope.root) twoConstructors)
          (firstClause? (twoConstructors.matchEnv .root)
            [.int 1, .int 2] twoClauses.clauses)) ∧
      ∀ count < 2, ∃ function after, ([Value.int 1, .int 2].take count).foldlM (applyValue 14)
          (.closure rules Scope.root) twoConstructors = .ok function after ∧
        after = { twoConstructors with frames := after.frames } := by
  have hclauses : ∀ clause ∈ twoClauses.clauses, clause.patterns.length = twoClauses.arity := by
    simp [twoClauses, arity]
  have hnames : ∀ name ∈ argumentNames 2, (twoConstructors.matchEnv
      .root).constructor? (.simple name) = none := by
    have htexts : argumentNames 2 = ["_arg1", "_arg2"] := rfl
    simp only [htexts, List.forall_mem_cons]
    exact ⟨rfl, rfl, nofun⟩
  have hscope : Scope.root.Within twoConstructors := by decide
  exact ⟨_, rfl, by rfl, chooses_applied rfl hclauses hscope rfl (by decide)
    hnames 9⟩

end FunBind

end Sml
