import Sml.Proofs.ElaborationHygiene
import Sml.Proofs.EvaluationStamps
import Sml.Scope.Initial

/-!
# Trees that have grown

A tree grows from the first one by elaborating and evaluating declarations,
whether they come to an end or not.  Every cell and every exception that is
mentioned anywhere in it exists, and an exception that is declared is none of
those that were there before.
-/

namespace Sml

open DynamicBasis List ScopeTree Initial Table

/-! ## Elaboration -/

/-- Elaboration copies what frames hold for evaluation. -/
def Hygiene.copying (counters : Counters) : Hygiene :=
  { any 0 [] with
    dynamics := DynamicBasis.Known counters
    empty := known_empty
    orElse := fun hfirst hsecond => hfirst.orElse hsecond.settled }

theorem ScopeTree.counters_elabProgram (tree : ScopeTree) (scope : Scope)
    (program : Program) (strict : Bool) :
    (leaves (elabProgram scope program)
      (.start tree scope strict)).tree.counters = tree.counters := by
  have hnumbers := (grows_elabProgram scope program
    (.start tree scope strict) (Nat.zero_le _)).numbers
  unfold counters
  rw [hnumbers.memory, hnumbers.exceptionIds]
  rfl

theorem ScopeTree.Known.elabProgram {tree : ScopeTree} (h : tree.Known)
    (scope : Scope) (program : Program) (strict : Bool) :
    (leaves (elabProgram scope program) (.start tree scope strict)).tree.Known := by
  have hnumbers := (grows_elabProgram scope program
    (.start tree scope strict) (Nat.zero_le _)).numbers
  let hygiene := Hygiene.copying tree.counters
  have hholds : hygiene.Holds (.start tree scope strict) :=
    { size := Nat.zero_le _
      statics := fun _ _ _ _ => trivial
      dynamics := h.frames
      store := fun _ _ => trivial
      monomorphic := fun _ _ _ _ => trivial
      explicit := fun _ _ _ _ => trivial
      flexible := fun _ _ _ _ => trivial }
  have hcovers : hygiene.Covers scope := fun _ _ => .inl (Nat.zero_le _)
  have hgives : hygiene.GivesScope ⟨.start tree scope strict⟩ (Sml.elabProgram scope program) :=
    Hygiene.givesScope_elabProgram hcovers fun declaration _ =>
      declaration.writtenWith_of_forall fun _ => trivial
  have hafter := hgives _ hholds le_rfl
  have hcounters := tree.counters_elabProgram scope program strict
  generalize hleft : leaves (Sml.elabProgram scope program)
    (.start tree scope strict) = left at hnumbers hcounters ⊢
  have hdynamics : ∀ number, (left.tree.frame number).dynamics.Known tree.counters := by
    unfold leaves at hleft
    cases hresult : Sml.elabProgram scope program (.start tree scope strict) with
    | ok | error =>
      rw [hresult] at hafter hleft
      exact hleft ▸ hafter.1.dynamics
  refine ⟨fun number => hcounters ▸ hdynamics number, ?_, ?_⟩
  · rw [hcounters, hnumbers.memory]
    exact h.memory
  · rw [hnumbers.exceptionIds]
    exact h.basic

/-! ## Evaluation -/

def Eval.stamping : Watch := ⟨0, True⟩

/-- The evaluators that may go this many steps deep keep to known stamps. -/
structure EvaluatorsKnow (steps : Nat) : Prop where
  expr : ∀ {bound} scope expr, Eval.stamping.Ensures bound
    (fun later value => value.Known later.counters) (evalExpr steps scope expr)
  application : ∀ {bound : Eval.stamping.Stage} {function argument : Value},
    function.Known bound.counters → argument.Known bound.counters →
    Eval.stamping.Ensures bound (fun later value => value.Known later.counters)
      (applyValue steps function argument)
  decl : ∀ {bound} scope declaration, Eval.stamping.Keeps bound (evalDecl steps scope declaration)
  str : ∀ {bound} scope body, Eval.stamping.Ensures bound
    (fun later basis => basis.Known later.counters) (evalStr steps scope body)

theorem evaluatorsKnow (steps : Nat) : EvaluatorsKnow steps where
  expr scope expr := ((Eval.watched _ steps).expr scope expr).mono
    fun _ _ _ hvalue => hvalue trivial
  application hfunction hargument := ((Eval.watched _ steps).application (fun _ => hfunction)
      fun _ => hargument).mono fun _ _ _ hvalue => hvalue trivial
  decl := (Eval.watched _ steps).decl
  str scope body := ((Eval.watched _ steps).str scope body).mono fun _ _ _ hbasis => hbasis trivial

/-! ## Growth -/

def Interrupt.stamps : Interrupt → List Stamp
  | .raised exn => exn.stamps
  | .fault _ => []
  | .outOfSteps => []

def Eval.stampsOf {α : Type} (inValue : α → List Stamp) :
    EStateM.Result Interrupt ScopeTree α → List Stamp
  | .ok value _ => inValue value
  | .error interrupt _ => interrupt.stamps

variable {met : List Stamp}
variable {before : ScopeTree} {α : Type} {scope result : Scope} {first last : List ExnBind}

namespace ScopeTree

def stamps (tree : ScopeTree) : List Stamp :=
  (tree.frames.toList.flatMap fun frame => frame.dynamics.stamps) ++
    tree.memory.toList.flatMap Value.stamps

theorem Known.gave {tree : ScopeTree} (h : tree.Known) :
    ∀ stamp ∈ tree.stamps, tree.counters.Gave stamp := by
  intro stamp hstamp
  rcases mem_append.mp hstamp with hstamp | hstamp
  · obtain ⟨frame, hframe, hstamp⟩ := mem_flatMap.mp hstamp
    obtain ⟨number, hnumber, rfl⟩ := mem_iff_getElem.mp hframe
    have hknown := h.frames number
    rw [frame, Array.getElem?_eq_getElem (by simpa using hnumber)]
      at hknown
    exact hknown stamp (by simpa using hstamp)
  · obtain ⟨value, hvalue, hstamp⟩ := mem_flatMap.mp hstamp
    exact h.memory value (by simpa using hvalue) stamp hstamp

/-- Trees that elaboration and evaluation come to from the first one, however
they end, with the stamps they met on the way.  In the middle of evaluation
there are new frames, and names are bound to what there is. -/
inductive Grown : ScopeTree → List Stamp → Prop
  | initial : Grown tree []
  | elaborated {tree met} (scope : Scope) (program : Program)
      (strict : Bool) : Grown tree met →
      Grown (leaves (elabProgram scope program) (.start tree scope strict)).tree met
  | expressed {tree met} (steps : Nat) (scope : Scope) (expr : Expr) :
      Grown tree met →
      Grown (leaves (evalExpr steps scope expr) tree)
        (Eval.stampsOf Value.stamps (evalExpr steps scope expr tree) ++ met)
  | applied {tree met} (steps : Nat) (function argument : Value) :
      (∀ stamp ∈ function.stamps ++ argument.stamps, stamp ∈ met) →
      Grown tree met →
      Grown (leaves (applyValue steps function argument) tree) (Eval.stampsOf Value.stamps
          (applyValue steps function argument tree) ++ met)
  | structured {tree met} (steps : Nat) (scope : Scope) (body : StrExp) :
      Grown tree met →
      Grown (leaves (evalStr steps scope body) tree)
        (Eval.stampsOf DynamicBasis.stamps (evalStr steps scope body tree) ++ met)
  | declared {tree met} (steps : Nat) (scope : Scope) (declaration : Decl) :
      Grown tree met →
      Grown (leaves (evalDecl steps scope declaration) tree)
        (Eval.stampsOf (fun _ => []) (evalDecl steps scope declaration tree) ++ met)
  | evaluated {tree met} (steps : Nat) (scope : Scope) (program : Program) :
      Grown tree met →
      Grown (leaves (evalProgram steps scope program) tree)
        (Eval.stampsOf (fun _ => []) (evalProgram steps scope program tree) ++ met)
  | nested {tree met} (scope : Scope) : Grown tree met →
      Grown (tree.nested scope).2 met
  | bound {tree met} (scope : Scope) (f : Frame → Frame) :
      (∀ frame, ∀ stamp ∈ (f frame).dynamics.stamps,
        stamp ∈ frame.dynamics.stamps ∨ stamp ∈ tree.stamps ∨ stamp ∈ met) →
      Grown tree met → Grown (tree.write scope f) met

theorem known_initial : tree.Known where
  frames number := by
    by_cases hnumber : number = 0
    · rw [hnumber]
      have hstamps : ∀ stamp ∈ (tree.frame 0).dynamics.stamps,
          tree.counters.Gave stamp := by decide +kernel
      exact hstamps
    · have hframe : tree.frame number = {} := by
        have hsize : tree.frames.size = 1 := by decide +kernel
        have hout : tree.frames.size ≤ number := by omega
        simp [frame, Array.getElem?_eq_none hout]
      rw [hframe]
      exact known_empty
  memory := by
    have hmemory : tree.memory.size = 0 := by decide +kernel
    simp [Array.size_eq_zero_iff.mp hmemory]
  basic exn := by
    have hcount : tree.exceptionIds = 11 := by decide +kernel
    rw [hcount]
    cases exn <;> decide

/-- All that is in the tree or was met has been given. -/
structure Sound (tree : ScopeTree) (met : List Stamp) : Prop where
  known : tree.Known
  met : ∀ stamp ∈ met, tree.counters.Gave stamp

theorem Sound.run {tree : ScopeTree} (h : tree.Sound met) {inValue : α → List Stamp}
    {action : Eval α} (haction : Eval.stamping.Ensures ⟨tree⟩
      (fun later value => ∀ stamp ∈ inValue value, later.counters.Gave stamp)
      action) : (leaves action tree).Sound (Eval.stampsOf inValue (action tree) ++ met) := by
  have hafter := haction tree ⟨Nat.zero_le _, fun _ => h.known⟩ le_rfl
  unfold leaves
  cases hresult : action tree with
  | ok value after =>
    rw [hresult] at hafter
    obtain ⟨hholds, hle, hvalue⟩ := hafter
    refine ⟨hholds.known trivial, fun stamp hstamp => ?_⟩
    rcases mem_append.mp hstamp with hstamp | hstamp
    · exact hvalue stamp hstamp
    · exact (h.met stamp hstamp).later hle.1
  | error interrupt after =>
    rw [hresult] at hafter
    obtain ⟨hholds, hle, hinterrupt⟩ := hafter
    refine ⟨hholds.known trivial, fun stamp hstamp => ?_⟩
    rcases mem_append.mp hstamp with hstamp | hstamp
    · cases interrupt with
      | raised exn => exact hinterrupt trivial stamp hstamp
      | fault | outOfSteps => cases hstamp
    · exact (h.met stamp hstamp).later hle.1

theorem Sound.keeps {tree : ScopeTree} (h : tree.Sound met) {action : Eval α}
    (haction : Eval.stamping.Keeps ⟨tree⟩ action) :
    (leaves action tree).Sound (Eval.stampsOf (fun _ => []) (action tree) ++ met) :=
  h.run (haction.mono fun _ _ _ _ => nofun)

theorem Grown.sound {tree : ScopeTree} (h : tree.Grown met) : tree.Sound met := by
  induction h with
  | initial => exact ⟨known_initial, nofun⟩
  | elaborated scope program strict _ ih =>
    refine ⟨ih.known.elabProgram scope program strict, ?_⟩
    rw [counters_elabProgram]
    exact ih.met
  | expressed steps scope expr _ ih => exact ih.run ((evaluatorsKnow steps).expr scope expr)
  | applied steps function argument hmet _ ih =>
    refine ih.run ((evaluatorsKnow steps).application ?_ ?_)
    · exact fun stamp hstamp => ih.met stamp (hmet stamp (by simp [hstamp]))
    · exact fun stamp hstamp => ih.met stamp (hmet stamp (by simp [hstamp]))
  | structured steps scope body _ ih => exact ih.run ((evaluatorsKnow steps).str scope body)
  | declared steps scope declaration _ ih =>
    exact ih.keeps ((evaluatorsKnow steps).decl scope declaration)
  | evaluated steps scope program _ ih =>
    exact ih.keeps (Eval.Watch.keeps_evalProgram steps scope program)
  | nested scope _ ih => exact ⟨ih.known.push scope known_empty, ih.met⟩
  | bound scope f hf _ ih =>
    refine ⟨ih.known.write scope fun frame hframe stamp hstamp => ?_, ?_⟩
    · rcases hf frame stamp hstamp with hstamp | hstamp | hstamp
      · exact hframe stamp hstamp
      · exact ih.known.gave stamp hstamp
      · exact ih.met stamp hstamp
    · rw [counters_write]
      exact ih.met

end ScopeTree

/-! ## Exceptions that are declared -/

namespace ExnBind

def isNew : ExnBind → Bool
  | .new _ _ _ => true
  | .alias _ _ _ => false

end ExnBind

def newExn (name : String) (argument : Option TypeExpr) (id : Nat) : Value :=
  match argument with
  | some _ => .exnConstructor name id
  | none => .exn name id none

/-- What one binding does, whose names go into the frame of this number. -/
structure ExnBind.Declares (number : Nat) (binding : ExnBind)
    (before after : ScopeTree) : Prop where
  size : after.frames.size = before.frames.size
  ids : after.exceptionIds = before.exceptionIds + if binding.isNew then 1 else 0
  others : ∀ name ≠ binding.name, get? (after.frame number).dynamics.values name =
      get? (before.frame number).dynamics.values name
  new : ∀ name argument span, binding = .new name argument span →
    get? (after.frame number).dynamics.values name =
      some { value := newExn name argument before.exceptionIds
             status := .exception }

theorem ExnBind.declares_write (binding : ExnBind) {number : Nat} {rest : Scope}
    {middle : ScopeTree} {value : DynamicValue} (hnumber : number < before.frames.size)
    (hframes : middle.frames = before.frames)
    (hids : middle.exceptionIds = before.exceptionIds + if binding.isNew then 1 else 0)
    (hnew : ∀ name argument span, binding = .new name argument span →
      value = { value := newExn name argument before.exceptionIds
                status := .exception }) :
    binding.Declares number before (middle.write (number :: rest)
        (·.setDynamicValue binding.name value)) := by
  have hget : ∀ name, get? ((middle.write (number :: rest)
      (·.setDynamicValue binding.name value)).frame number).dynamics.values name =
      if binding.name = name then some value
      else get? (before.frame number).dynamics.values name := by
    intro name
    rw [write, frame_modifyFrame _ _ _ _ (hframes ▸ hnumber), if_pos rfl]
    have hframe : middle.frame number = before.frame number := by
      rw [frame, frame, hframes]
    rw [hframe]
    exact get?_insert _ _ _ _
  refine ⟨?_, ?_, fun name hname => ?_, fun name argument span hbinding => ?_⟩
  · rw [size_write, hframes]
  · rw [(middle.numbers_write _ _).exceptionIds, hids]
  · rw [hget, if_neg hname.symm]
  · rw [hget, hnew name argument span hbinding, hbinding]
    exact if_pos rfl

variable {after tree : ScopeTree} {name : String} {argument : Option TypeExpr} {span : Span}

namespace Eval

section Loop

variable (number : Nat) {step : ExnBind → PUnit → Eval (ForInStep PUnit)}
  (hstep : ∀ binding result before after, number < before.frames.size →
    step binding ⟨⟩ before = .ok result after →
    result = .yield ⟨⟩ ∧ binding.Declares number before after)
include hstep

theorem exceptionLoop_others {bindings : List ExnBind} (hnumber : number < before.frames.size)
    (h : forIn bindings PUnit.unit step before = .ok ⟨⟩ after)
    (hname : ∀ binding ∈ bindings, binding.name ≠ name) :
    get? (after.frame number).dynamics.values name =
      get? (before.frame number).dynamics.values name := by
  induction bindings generalizing before with
  | nil =>
    rw [forIn_nil] at h
    cases h
    rfl
  | cons binding bindings ih =>
    rw [forIn_cons] at h
    obtain ⟨result, middle, hfirst, h⟩ := bind_eq_ok_state h
    obtain ⟨rfl, hdeclares⟩ := hstep _ _ _ _ hnumber hfirst
    rw [ih (hdeclares.size ▸ hnumber) h fun binding hbinding => hname binding (by simp [hbinding])]
    exact hdeclares.others name (hname binding (by simp)).symm

theorem exceptionLoop_new (hnumber : number < before.frames.size)
    (h : forIn (first ++ .new name argument span :: last) PUnit.unit step before = .ok ⟨⟩ after)
    (hlast : ∀ binding ∈ last, binding.name ≠ name) :
    get? (after.frame number).dynamics.values name =
      some { value := newExn name argument
               (before.exceptionIds + first.countP ExnBind.isNew)
             status := .exception } := by
  induction first generalizing before with
  | nil =>
    rw [nil_append, forIn_cons] at h
    obtain ⟨result, middle, hfirst, h⟩ := bind_eq_ok_state h
    obtain ⟨rfl, hdeclares⟩ := hstep _ _ _ _ hnumber hfirst
    rw [exceptionLoop_others number hstep (hdeclares.size ▸ hnumber) h hlast]
    exact hdeclares.new name argument span rfl
  | cons binding first ih =>
    rw [cons_append, forIn_cons] at h
    obtain ⟨result, middle, hfirst, h⟩ := bind_eq_ok_state h
    obtain ⟨rfl, hdeclares⟩ := hstep _ _ _ _ hnumber hfirst
    rw [ih (hdeclares.size ▸ hnumber) h, hdeclares.ids, countP_cons,
      Nat.add_assoc, Nat.add_comm (first.countP _)]

end Loop

/-- Each new exception of a declaration gets a number of its own, none of
those given before. -/
theorem declareExceptions_new
    (h : declareExceptions scope (first ++ .new name argument span :: last) tree = .ok result after)
    (hlast : ∀ binding ∈ last, binding.name ≠ name) :
    after.dynamicValue? result [] name =
      some { value := newExn name argument
               (tree.exceptionIds + first.countP ExnBind.isNew)
             status := .exception } := by
  unfold declareExceptions at h
  obtain ⟨inner, middle, hnested, h⟩ := bind_eq_ok_state h
  cases hnested
  obtain ⟨_, final, hloop, h⟩ := bind_eq_ok_state h
  cases h
  have hnumber : tree.frames.size < (tree.nested scope).2.frames.size := by
    simp [ScopeTree.nested, nestedAt, push]
  have hfound := exceptionLoop_new tree.frames.size ?_ hnumber hloop hlast
  · rw [ScopeTree.dynamicValue?, ScopeTree.find?, hfound]
    rfl
  · intro binding result before after hnumber hbody
    rcases binding with ⟨name, argument, span⟩ | ⟨name, target, span⟩
    · cases hbody
      refine ⟨rfl, ExnBind.declares_write (.new name argument span) hnumber rfl rfl ?_⟩
      rintro _ _ _ ⟨⟩
      rfl
    · obtain ⟨found, middle, hlook, hbody⟩ := bind_eq_ok_state hbody
      obtain ⟨-, rfl⟩ := EStateM.Result.ok.inj hlook
      cases found with
      | none => cases hbody
      | some value =>
        cases hbody
        exact ⟨rfl, ExnBind.declares_write (.alias name target span) hnumber rfl rfl (by simp)⟩

end Eval

namespace ScopeTree

theorem Sound.exception_notMem (h : tree.Sound met) {id : Nat}
    (hid : tree.exceptionIds ≤ id) : .exception id ∉ tree.stamps ++ met := by
  intro hmem
  have hgave : tree.counters.Gave (.exception id) :=
    (mem_append.mp hmem).elim (h.known.gave _) (h.met _)
  exact Nat.not_lt.mpr hid hgave

theorem Sound.not_dangling (h : tree.Sound met) {action : Eval α}
    {P : Eval.stamping.Stage → α → Prop} (haction : Eval.stamping.Ensures ⟨tree⟩ P action)
    {error : EvalError} (hrun : action tree = .error (.fault error) after) (address : Nat) :
    error.cause ≠ .dangling address := by
  have hafter := haction tree ⟨Nat.zero_le _, fun _ => h.known⟩ le_rfl
  rw [hrun] at hafter
  exact hafter.2.2 trivial address

theorem Sound.declareExceptions (h : tree.Sound met) (hrun : Eval.declareExceptions scope
      (first ++ .new name argument span :: last) tree = .ok result after)
    (hlast : ∀ binding ∈ last, binding.name ≠ name) :
    ∃ id, after.dynamicValue? result [] name =
        some { value := newExn name argument id, status := .exception } ∧
      id < after.exceptionIds ∧ .exception id ∉ tree.stamps ++ met ∧
      ∀ exn : BasicExn, exn.id ≠ id := by
  have hfound := Eval.declareExceptions_new hrun hlast
  have hdeclares : Eval.stamping.Declares ⟨tree⟩ scope (Eval.declareExceptions scope
        (first ++ .new name argument span :: last)) :=
    Eval.Watch.declares_exceptions scope _
  have hafter := hdeclares tree ⟨Nat.zero_le _, fun _ => h.known⟩ le_rfl
  rw [hrun] at hafter
  have hid := (hafter.1.known trivial).dynamicValue? hfound
  refine ⟨_, hfound, ?_, h.exception_notMem (Nat.le_add_right _ _), fun exn => ?_⟩
  · cases argument with
    | none => exact Value.known_exn.mp hid |>.1
    | some type => exact Value.known_exnConstructor.mp hid
  · have hbasic := h.known.basic exn
    omega

/-- In a tree that has grown, all cells and exceptions that are mentioned
exist: those in frames and cells, and those in what evaluation gave or raised
on the way.  So no evaluation stops at a reference without a cell, and an
exception that is declared has a number that nothing had before. -/
theorem Grown.stamps_given {tree : ScopeTree} {met : List Stamp} (h : tree.Grown met) :
    (∀ stamp ∈ tree.stamps ++ met, tree.counters.Gave stamp) ∧
    (∀ steps scope expr error after address,
      evalExpr steps scope expr tree = .error (.fault error) after →
      error.cause ≠ .dangling address) ∧
    (∀ steps scope declaration error after address,
      evalDecl steps scope declaration tree = .error (.fault error) after →
      error.cause ≠ .dangling address) ∧
    (∀ steps scope body error after address,
      evalStr steps scope body tree = .error (.fault error) after →
      error.cause ≠ .dangling address) ∧
    (∀ steps function argument error after address, (∀ stamp ∈ function.stamps ++ argument.stamps,
        stamp ∈ tree.stamps ++ met) →
      applyValue steps function argument tree = .error (.fault error) after →
      error.cause ≠ .dangling address) ∧
    (∀ steps scope first name argument span last whole result after, evalDecl steps scope
        (.exceptions (first ++ .new name argument span :: last) whole) tree = .ok result after →
      (∀ binding ∈ last, binding.name ≠ name) →
      ∃ id, after.dynamicValue? result [] name =
          some { value := newExn name argument id, status := .exception } ∧
        id < after.exceptionIds ∧ .exception id ∉ tree.stamps ++ met ∧
        ∀ exn : BasicExn, exn.id ≠ id) := by
  have hsound := h.sound
  have hgave : ∀ stamp ∈ tree.stamps ++ met, tree.counters.Gave stamp :=
    fun stamp hstamp => (List.mem_append.mp hstamp).elim
      (hsound.known.gave stamp) (hsound.met stamp)
  refine ⟨hgave, ?_, ?_, ?_, ?_, ?_⟩
  · intro steps scope expr error after address hrun
    exact hsound.not_dangling ((evaluatorsKnow steps).expr scope expr) hrun _
  · intro steps scope declaration error after address hrun
    exact hsound.not_dangling ((evaluatorsKnow steps).decl scope declaration) hrun _
  · intro steps scope body error after address hrun
    exact hsound.not_dangling ((evaluatorsKnow steps).str scope body) hrun _
  · intro steps function argument error after address hmet hrun
    refine hsound.not_dangling ((evaluatorsKnow steps).application ?_ ?_) hrun _
    · exact fun stamp hstamp => hgave stamp (hmet stamp (by simp [hstamp]))
    · exact fun stamp hstamp => hgave stamp (hmet stamp (by simp [hstamp]))
  · intro steps scope first name argument span last whole result after hrun hlast
    cases steps with
    | zero => cases hrun
    | succ steps =>
      exact hsound.declareExceptions hrun hlast

/-- The same declaration, evaluated again once there is a reference to its
first exception, makes another one. -/
theorem Grown.stamps_given_again :
    let declaration : Decl := .exceptions [.new "E" none {}] {}
    let reference : Expr := .app (.name { name := "ref" } {}) (.name { name := "E" } {}) {}
    let scope : Scope := [1, 0]
    let tree := leaves (evalExpr 3 scope reference)
      (leaves (evalDecl 1 .root declaration) Initial.tree)
    ∃ result after, evalDecl 1 .root declaration tree = .ok result after ∧
      .exception 11 ∈ tree.stamps ∧
      ∃ id, after.dynamicValue? result [] "E" =
          some { value := newExn "E" none id, status := .exception } ∧
        id < after.exceptionIds ∧ .exception id ∉ tree.stamps ++ [.cell 0] ∧
        ∀ exn : BasicExn, exn.id ≠ id := by
  intro declaration reference scope tree
  have hdeclared := Grown.initial.declared 1 .root declaration
  have hmet : Eval.stampsOf Value.stamps (evalExpr 3 scope reference
      (leaves (evalDecl 1 .root declaration) Initial.tree)) ++
      (Eval.stampsOf (fun _ => [])
        (evalDecl 1 .root declaration Initial.tree) ++ []) = [.cell 0] := by
    decide +kernel
  have hgrown := hmet ▸ hdeclared.expressed 3 scope reference
  have hrun : evalDecl 1 .root declaration tree = .ok _ _ := rfl
  have hfirst : .exception 11 ∈ tree.stamps := by decide +kernel
  exact ⟨_, _, hrun, hfirst, hgrown.stamps_given.2.2.2.2.2 1 .root [] "E" none
    {} [] {} _ _ hrun nofun⟩

end ScopeTree

end Sml
