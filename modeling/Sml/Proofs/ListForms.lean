import Sml.Proofs.EvaluationStamps
import Sml.Proofs.MoreSteps
import Sml.Proofs.ShownNames
import Sml.Proofs.TupleFields

/-!
# Lists and what they are short for

A list expression makes its elements one after the other and then the list; a
list pattern looks first at how many elements there are.  Where `::` and `nil`
are the constructors of lists, both do as the elements put together with
`::` do.
-/

namespace Sml

open List ScopeTree Value

variable {tree after : ScopeTree} {scope : Scope} {value : Value}

/-- The names of the constructors of lists stand for these constructors. -/
structure ScopeTree.BindsLists (tree : ScopeTree) (scope : Scope) : Prop where
  cons : (tree.matchEnv scope).constructor? (.simple "::") = some (.constructor "::")
  nil : (tree.matchEnv scope).constructor? (.simple "nil") = some .nil

theorem ScopeTree.matchEnv_constructor?_eq_some {name : String}
    (h : (tree.matchEnv scope).constructor? (.simple name) = some value) :
    ∃ entry, tree.dynamicValue? scope [] name = some entry ∧ entry.value = value := by
  obtain ⟨entry, hentry, hvalue⟩ := Option.map_eq_some_iff.mp h
  exact ⟨entry, (Option.filter_eq_some_iff.mp hentry).1, hvalue⟩

theorem ScopeTree.BindsLists.of_frames (h : tree.BindsLists scope)
    (hframes : ∀ number ∈ scope, after.frame number = tree.frame number) :
    after.BindsLists scope := by
  have hlook : ∀ name, (after.matchEnv scope).constructor? (.simple name) =
      (tree.matchEnv scope).constructor? (.simple name) := by
    intro name
    simp only [matchEnv, LongName.simple, dynamicValue?, find?_eq_of_frames hframes]
  exact ⟨(hlook _).trans h.cons, (hlook _).trans h.nil⟩

/-! ## Expressions -/

namespace Expr

/-- The second expression is the first ones put together with `::` before
`nil`. -/
inductive Consed : List Expr → Expr → Prop
  | nil (span : Span) : Consed [] (.name (.simple "nil") span)
  | cons {elements : List Expr} {rest : Expr} (element : Expr) (nameSpan pairSpan span : Span)
      (h : Consed elements rest) : Consed (element :: elements)
        (.app (.name (.simple "::") nameSpan) (.tuple [element, rest] pairSpan) span)

end Expr

namespace Eval

variable {result : EStateM.Result Interrupt ScopeTree Value}

theorem evalExpr_constructor {name : String}
    (h : (tree.matchEnv scope).constructor? (.simple name) = some value) (steps : Nat)
    (span : Span) :
    evalExpr (steps + 1) scope (.name (.simple name) span) tree = .ok value tree := by
  obtain ⟨entry, hentry, rfl⟩ := matchEnv_constructor?_eq_some h
  rw [evalExpr]
  change EStateM.bind (look fun tree => tree.dynamicValue? scope [] name) _ tree = _
  rw [EStateM.bind, look, get_bind_apply, hentry]
  rfl

/-- The first element, then the rest, and from both the list. -/
def joined (element rest : Nat → Eval Value) (steps : Nat) : Eval Value := do
  let head ← element steps
  let tail ← rest steps
  return .cons head tail

theorem ends_joined {element rest rest' : Nat → Eval Value} (helement : Settles element)
    (hrest : Settles rest) (hrest' : Settles rest')
    (h : ∀ value middle, Ends element tree (.ok value middle) →
      ∀ result, Ends rest middle result ↔ Ends rest' middle result) :
    Ends (joined element rest) tree result ↔ Ends (joined element rest') tree result := by
  have hsettles : ∀ {rest : Nat → Eval Value}, Settles rest → ∀ head, Settles fun steps => do
      let tail ← rest steps
      return cons head tail :=
    fun hrest head => hrest.bind fun _ _ => .refl _
  unfold joined
  rw [ends_bind helement (hsettles hrest), ends_bind helement (hsettles hrest')]
  refine or_congr (exists₂_congr fun value middle => and_congr_right fun hvalue => ?_) .rfl
  rw [ends_bind hrest fun _ _ => .refl _, ends_bind hrest' fun _ _ => .refl _]
  simp only [h value middle hvalue]

theorem evalExpr_list_cons (steps : Nat) (element : Expr) (elements : List Expr) (span : Span) :
    evalExpr (steps + 1) scope (.list (element :: elements) span) =
      joined (evalExpr · scope element) (fun steps => evalExpr (steps + 1) scope
        (.list elements span)) steps := by
  simp only [joined, evalExpr, mapM_cons, bind_assoc, pure_bind]
  rfl

theorem evalExpr_cons (h : tree.BindsLists scope) (steps : Nat) (element rest : Expr)
    (nameSpan pairSpan span : Span) :
    evalExpr (steps + 3) scope (.app (.name (.simple "::") nameSpan)
        (.tuple [element, rest] pairSpan) span) tree =
      joined (evalExpr · scope element) (evalExpr · scope rest) (steps + 1) tree := by
  rw [evalExpr, bind_apply_of_ok (evalExpr_constructor h.cons (steps + 1) nameSpan)]
  simp only [evalExpr, mapM_cons, mapM_nil, bind_assoc, pure_bind]
  rfl

theorem spares_evalExpr {steps : Nat} {expr : Expr}
    (h : evalExpr steps scope expr tree = .ok value after) :
    tree.Spares tree.frames.size after :=
  ((grows_of_ensures ((watched _ steps).expr scope expr)).of_ok h le_rfl).spares

theorem ends_list_iff {elements : List Expr} {expr : Expr} (h : Expr.Consed elements expr)
    (hlists : tree.BindsLists scope) (hscope : scope.Within tree) (span : Span) :
    Ends (evalExpr · scope (.list elements span)) tree result ↔
      Ends (evalExpr · scope expr) tree result := by
  induction h generalizing tree result with
  | nil nilSpan =>
    rw [← ends_add (settles_expr scope _) 1, ← ends_add (settles_expr scope (.name _ _)) 1]
    refine ends_congr fun steps => ?_
    rw [evalExpr_constructor hlists.nil, evalExpr]
    rfl
  | @cons elements rest element nameSpan pairSpan consSpan _ ih =>
    have hrest := settles_expr scope (.list elements span)
    have hjoined : Settles (joined (evalExpr · scope element) (evalExpr · scope rest)) :=
      (settles_expr scope element).bind fun _ =>
        (settles_expr scope rest).bind fun _ _ => .refl _
    rw [← ends_add (settles_expr scope _) 1, ← ends_add (settles_expr scope (.app _ _ _)) 3]
    simp only [evalExpr_list_cons, ends_congr fun steps => evalExpr_cons hlists steps element rest
      nameSpan pairSpan consSpan]
    rw [ends_add hjoined 1]
    refine ends_joined (settles_expr scope element) (fun steps => hrest (steps + 1))
      (settles_expr scope rest) fun value middle hends result => ?_
    obtain ⟨_, steps, hvalue⟩ := hends
    -- The first element leaves the frames of the scope as they were.
    have hspares := spares_evalExpr hvalue
    rw [ends_add hrest 1]
    exact ih (hlists.of_frames fun number hnumber => hspares.frame_eq (hscope number hnumber))
      fun number hnumber => (hscope number hnumber).trans_le hspares.size_le

end Eval

/-! ## Patterns -/

namespace Value

/-- The second value is what is left of the first after some elements. -/
inductive IsTail : Value → Value → Prop
  | refl (value : Value) : IsTail value value
  | cons {tail rest : Value} (head : Value) (h : IsTail tail rest) : IsTail (.cons head tail) rest

/-- Every `::` on the way to the end of the list has a pair as its argument. -/
def HasPairs (value : Value) : Prop :=
  ∀ argument, value.IsTail (.constructed "::" (some argument)) →
    ∃ head tail, argument = .tuple [head, tail]

theorem HasPairs.tail {head tail : Value} (h : (cons head tail).HasPairs) : tail.HasPairs :=
  fun argument hargument => h argument (.cons head hargument)

theorem isTail_nil {rest : Value} (h : nil.IsTail rest) : rest = nil := by
  generalize hnil : nil = value at h
  cases h with
  | refl => rfl
  | cons head _ => simp [nil, cons] at hnil

theorem isTail_cons {head tail rest : Value} (h : (cons head tail).IsTail rest) :
    rest = cons head tail ∨ tail.IsTail rest := by
  generalize hvalue : cons head tail = value at h
  cases h with
  | refl => exact .inl rfl
  | @cons tail' _ head' h =>
    have hpair : tuple [head, tail] = tuple [head', tail'] := by simpa [cons] using hvalue
    have helements := congrArg asTuple? hpair
    simp only [asTuple?_tuple, Option.some.injEq, List.cons.injEq, and_true] at helements
    exact .inr (helements.2 ▸ h)

theorem hasPairs_list (values : List Value) : (list values).HasPairs := by
  intro argument h
  induction values with
  | nil => exact absurd (isTail_nil h) (by simp [nil])
  | cons value values ih =>
    rcases isTail_cons h with heq | htail
    · simp only [cons, constructed.injEq, Option.some.injEq, true_and] at heq
      exact ⟨value, list values, heq⟩
    · exact ih htail

theorem HasPairs.cons_or (h : value.HasPairs) : (∃ head tail, value = .cons head tail) ∨
      ∀ argument, value ≠ .constructed "::" (some argument) := by
  by_cases hcons : ∃ argument, value = .constructed "::" (some argument)
  · obtain ⟨argument, rfl⟩ := hcons
    obtain ⟨head, tail, rfl⟩ := h argument (.refl _)
    exact .inl ⟨head, tail, rfl⟩
  · exact .inr (not_exists.mp hcons)

theorem sameNullary_nil (value : Value) : nil.sameNullary value = true ↔ value = nil := by
  cases value with
  | constructed name argument =>
    cases argument with
    | none =>
      rw [nil, sameNullary, beq_iff_eq, constructed.injEq, eq_comm]
      exact (and_iff_left rfl).symm
    | some argument => simp [nil, sameNullary]
  | _ => simp [nil, sameNullary]

theorem elements?_succ_eq_none
    (h : ∀ argument, value ≠ .constructed "::" (some argument)) (count : Nat) :
    value.elements? (count + 1) = none := by
  cases value with
  | constructed name argument =>
    cases argument with
    | none => rfl
    | some argument =>
      have hname : name ≠ "::" := fun heq => h argument (by rw [heq])
      cases argument <;> simp [elements?, hname]
  | _ => rfl

theorem elements?_cons (head tail : Value) (count : Nat) :
    (cons head tail).elements? (count + 1) = (tail.elements? count).map (head :: ·) := by
  have hget : ∀ entry ∈ Ty.numbered 1 [head, tail],
      Table.get? (Table.ofList (Ty.numbered 1 [head, tail])) entry.1 = some entry.2 :=
    fun entry hentry => Table.get?_ofList_of_nodup (Ty.nodup_numbered _ 1) hentry
  have hhead := hget ("1", head) mem_cons_self
  have htail := hget ("2", tail) (mem_cons_of_mem _ mem_cons_self)
  simp only [cons, tuple, elements?, if_true, hhead, htail]

end Value

namespace Pat

/-- The second pattern is the first ones put together with `::` before
`nil`. -/
inductive Consed : List Pat → Pat → Prop
  | nil (span : Span) : Consed [] (.name (.simple "nil") span)
  | cons {elements : List Pat} {rest : Pat} (element : Pat) (pairSpan span : Span)
      (h : Consed elements rest) : Consed (element :: elements)
        (.con (.simple "::") (.tuple [element, rest] pairSpan) span)

variable {env : MatchEnv} {bound found : Bindings}

/-- Patterns succeed one after another if the first succeeds and then the
others do with what it binds. -/
theorem matchList_cons_eq_ok {pattern : Pat} {patterns : List Pat} {values : List Value} :
    matchList env (pattern :: patterns) (value :: values) bound = .ok ⟨true, found⟩ ↔
      ∃ middle, matchFrom env pattern value bound = .ok ⟨true, middle⟩ ∧
        matchList env patterns values middle = .ok ⟨true, found⟩ := by
  rw [matchList]
  cases matchFrom env pattern value bound with
  | error error => simp [bind, Except.bind]
  | ok result =>
    obtain ⟨matched, middle⟩ := result
    cases matched <;> simp [bind, Except.bind, pure, Except.pure]

theorem matchFrom_list_nil (span : Span) :
    matchFrom env (.list [] span) value bound = .ok ⟨true, found⟩ ↔
      value = .nil ∧ bound = found := by
  rw [matchFrom, length_nil]
  cases value with
  | constructed name argument =>
    cases argument with
    | none => by_cases hname : name = "nil" <;> simp [Value.elements?, Value.nil, matchList, hname]
    | some argument => simp [Value.elements?, Value.nil]
  | _ => simp [Value.elements?, Value.nil]

theorem matchFrom_nil (h : env.constructor? (.simple "nil") = some .nil) (span : Span) :
    matchFrom env (.name (.simple "nil") span) value bound = .ok ⟨true, found⟩ ↔
      value = .nil ∧ bound = found := by
  rw [matchFrom, h]
  simp [sameNullary_nil]

section Cons

variable {pattern rest : Pat} {patterns : List Pat} {head tail : Value}

theorem matchFrom_list_cons (span : Span) :
    matchFrom env (.list (pattern :: patterns) span) (.cons head tail) bound = .ok ⟨true, found⟩ ↔
      ∃ middle, matchFrom env pattern head bound = .ok ⟨true, middle⟩ ∧
        matchFrom env (.list patterns span) tail middle = .ok ⟨true, found⟩ := by
  rw [matchFrom, length_cons, elements?_cons]
  simp only [matchFrom]
  cases tail.elements? patterns.length with
  | none => simp
  | some values => exact matchList_cons_eq_ok

theorem matchFrom_cons (h : env.constructor? (.simple "::") = some (.constructor "::"))
    (pairSpan span : Span) :
    matchFrom env (.con (.simple "::") (.tuple [pattern, rest] pairSpan) span) (.cons head tail)
        bound = .ok ⟨true, found⟩ ↔
      ∃ middle, matchFrom env pattern head bound = .ok ⟨true, middle⟩ ∧
        matchFrom env rest tail middle = .ok ⟨true, found⟩ := by
  rw [matchFrom, h, Value.cons]
  simp only [if_true]
  rw [matchFrom, Value.asTuple?_tuple]
  simp only [length_cons, length_nil, if_true, matchList_cons_eq_ok]
  simp [matchList]

theorem matchFrom_cons_of_ne (h : env.constructor? (.simple "::") = some (.constructor "::"))
    (hvalue : ∀ argument, value ≠ .constructed "::" (some argument)) (span : Span) :
    matchFrom env (.con (.simple "::") pattern span) value bound = .ok ⟨false, bound⟩ := by
  rw [matchFrom, h]
  cases value with
  | constructed name argument =>
    cases argument with
    | none => rfl
    | some argument =>
      have hname : "::" ≠ name := fun heq => hvalue argument (by rw [heq])
      exact if_neg hname
  | _ => rfl

end Cons

theorem matchFrom_list_iff {patterns : List Pat} {pattern : Pat} (h : Consed patterns pattern)
    (hcons : env.constructor? (.simple "::") = some (.constructor "::"))
    (hnil : env.constructor? (.simple "nil") = some .nil) (hvalue : value.HasPairs) (span : Span) :
    matchFrom env (.list patterns span) value bound = .ok ⟨true, found⟩ ↔
      matchFrom env pattern value bound = .ok ⟨true, found⟩ := by
  induction h generalizing value bound with
  | nil nilSpan => rw [matchFrom_list_nil, matchFrom_nil hnil]
  | @cons patterns rest pattern pairSpan consSpan _ ih =>
    rcases hvalue.cons_or with ⟨head, tail, rfl⟩ | hother
    · rw [matchFrom_list_cons, matchFrom_cons hcons]
      exact exists_congr fun middle => and_congr_right fun _ => ih hvalue.tail
    · rw [matchFrom_cons_of_ne hcons hother, matchFrom, length_cons,
        elements?_succ_eq_none hother]

end Pat

open Eval in
/-- A list expression ends as its elements put together with `::` do: with the
same value, exception or fault, and with the same cells, output and number of
exceptions.  A list pattern matches what its elements put together match, and
binds the same. -/
theorem lists_agree_with_cons {elements : List Expr} {expr : Expr}
    (hexpr : Expr.Consed elements expr) {patterns : List Pat} {pattern : Pat}
    (hpattern : Pat.Consed patterns pattern) (hlists : tree.BindsLists scope)
    (hscope : scope.Within tree) (span : Span) :
    (∀ result, Ends (evalExpr · scope (.list elements span)) tree result ↔
      Ends (evalExpr · scope expr) tree result) ∧
    ∀ value : Value, value.HasPairs → ∀ bound found,
      (Pat.list patterns span).matchFrom (tree.matchEnv scope) value bound = .ok ⟨true, found⟩ ↔
        pattern.matchFrom (tree.matchEnv scope) value bound = .ok ⟨true, found⟩ :=
  ⟨fun _ => ends_list_iff hexpr hlists hscope span, fun _ hvalue _ _ =>
    Pat.matchFrom_list_iff hpattern hlists.cons hlists.nil hvalue span⟩

def listConstructors : ScopeTree where
  frames := #[{ dynamics := { values :=
    [("::", { value := .constructor "::", status := .constructor }),
      ("nil", { value := .nil, status := .constructor }),
      ("ref", { value := .makeRef, status := .constructor })] } }]

def newCell (content : Int64) : Expr :=
  .app (.name (.simple "ref") {}) (.const (.int content) {}) {}

def consOfCells : Expr :=
  let cons (first rest : Expr) : Expr := .app (.name (.simple "::") {}) (.tuple [first, rest] {}) {}
  cons (newCell 1) (cons (newCell 2) (.name (.simple "nil") {}))

def consOfNames : Pat :=
  let cons (first rest : Pat) : Pat := .con (.simple "::") (.tuple [first, rest] {}) {}
  cons (.var "x" {}) (cons (.var "y" {}) (.name (.simple "nil") {}))

open Eval in
/-- The cells are made from left to right. -/
theorem lists_agree_with_cons_cells : listConstructors.BindsLists .root ∧
      Scope.Within listConstructors .root ∧ (list [.reference 0, .reference 1]).HasPairs ∧
      Expr.Consed [newCell 1, newCell 2] consOfCells ∧
      Pat.Consed [.var "x" {}, .var "y" {}] consOfNames ∧
      Ends (evalExpr · .root consOfCells) listConstructors
        (.ok (.list [.reference 0, .reference 1])
          { listConstructors with memory := #[.int 1, .int 2] }) ∧
      consOfNames.matchFrom (listConstructors.matchEnv .root)
          (.list [.reference 0, .reference 1]) [] =
        .ok ⟨true, [("x", .reference 0), ("y", .reference 1)]⟩ := by
  have hlists : listConstructors.BindsLists .root := ⟨rfl, rfl⟩
  have hscope : Scope.Within listConstructors .root := by decide
  have hexpr : Expr.Consed [newCell 1, newCell 2] consOfCells :=
    .cons _ {} {} {} (.cons _ {} {} {} (.nil {}))
  have hpattern : Pat.Consed [.var "x" {}, .var "y" {}] consOfNames :=
    .cons _ {} {} (.cons _ {} {} (.nil {}))
  have hpairs := hasPairs_list [.reference 0, .reference 1]
  have hagree := lists_agree_with_cons hexpr hpattern hlists hscope {}
  refine ⟨hlists, hscope, hpairs, hexpr, hpattern, (hagree.1 _).mp ⟨nofun, 4, rfl⟩,
    (hagree.2 _ hpairs _ _).mp ?_⟩
  refine (Pat.matchFrom_list_cons {}).mpr ⟨_, rfl, (Pat.matchFrom_list_cons {}).mpr ⟨_, rfl, ?_⟩⟩
  exact (Pat.matchFrom_list_nil {}).mpr ⟨rfl, rfl⟩

end Sml
