import Sml.Proofs.ElaborationScope
import Sml.Proofs.InputGrowth
import Sml.Proofs.ReadingNames

/-!
# Names stay fresh for a whole session

The supply that elaboration goes on from is kept with the scope it has made.
Whatever inputs a session has seen, a name that the supply of a scope has
still to give is not in use there: not in a type that the scope sees, and not
in the store that is kept with it.
-/

namespace Sml

open List ScopeTree StaticBasis Ty

/-! ## Names still to be given -/

variable {number : Nat} {tree : ScopeTree} {scope : Scope}
variable {P : String → Prop} {context : Store × NameSupply} {declaration : Decl}

namespace NameSupply

def bare (name : String) : List Char := name.toList.dropWhile (· == '\'')

theorem bare_name (number : Nat) : bare (name number) = '*' :: 't' :: (toString number).toList := by
  simp [bare, name]

theorem bare_equalityName (name : String) : bare (equalityName name) = bare name := by
  simp [bare, equalityName]

/-- The name has none of the numbers from `next` on, with any quotes. -/
def Spent (next : Nat) (name : String) : Prop :=
  ∀ number, next ≤ number → bare name ≠ bare (NameSupply.name number)

theorem spent_name (next : Nat) : Spent (next + 1) (name next) := by
  intro number hnumber hbare
  rw [bare_name, bare_name, List.cons.injEq, List.cons.injEq] at hbare
  have hsame : next = number := toString_injective (String.ext hbare.2.2)
  omega

theorem spent_of_not_mem_star {name : String} (h : '*' ∉ name.toList)
    (next : Nat) : Spent next name := by
  intro number _ hbare
  have hstar : '*' ∈ bare name := by
    rw [hbare, bare_name]
    simp
  exact h ((dropWhile_sublist _).subset hstar)

theorem Spent.lt {next : Nat} {used : String} (h : Spent next used)
    (hused : used = name number ∨ used = equalityName (name number)) : number < next := by
  by_contra hnumber
  refine h number (by omega) ?_
  rcases hused with rfl | rfl
  · rfl
  · exact bare_equalityName _

end NameSupply

open NameSupply

/-- Elaboration that sees the frames of the scope, and whose names are spent
once the supply has given them. -/
def Hygiene.spending (tree : ScopeTree) (scope : Scope) : Hygiene where
  base := tree.frames.size
  start := scope
  kind := Spent
  written name := '*' ∉ name.toList
  dynamics _ := True
  kind_mono hle h number hnumber := h number (hle.trans hnumber)
  closed next :=
    { equality := fun name h number hnumber =>
        bare_equalityName name ▸ h number hnumber
      expansion := fun index number _ hbare => by
        rw [bare_name] at hbare
        simp [bare] at hbare }
  given := spent_name
  kind_of_written h := spent_of_not_mem_star h _
  empty := trivial
  orElse _ _ := trivial

/-! ## Scopes and what elaboration goes on from -/

namespace ScopeTree

theorem context_cons (tree : ScopeTree) (number : Nat) (scope : Scope) :
    tree.context (number :: scope) = (tree.frame number).context.getD (tree.context scope) := by
  unfold context
  rw [find?_zero, find?_zero, findSome?_cons]
  cases (tree.frame number).context <;> rfl

theorem context_congr {before after : ScopeTree}
    (h : ∀ number ∈ scope, (after.frame number).context = (before.frame number).context) :
    after.context scope = before.context scope := by
  induction scope with
  | nil => rfl
  | cons number scope ih =>
    rw [context_cons, context_cons, h number (by simp),
      ih fun number hnumber => h number (by simp [hnumber])]

theorem context_write {f : Frame → Frame}
    (hnumber : number < tree.frames.size) (hf : ∀ frame, (f frame).context = some context) :
    (tree.write (number :: scope) f).context (number :: scope) = context := by
  rw [context_cons, write, frame_modifyFrame _ _ _ _ hnumber, if_pos rfl, hf]
  rfl

end ScopeTree

/-- All frames of the scope are in the tree and mention names of some kind
only, and elaboration goes on from this context. -/
structure Scope.Mentions (P : String → Prop) (context : Store × NameSupply)
    (tree : ScopeTree) (scope : Scope) : Prop where
  within : scope.Within tree
  statics : ∀ number ∈ scope, (tree.frame number).statics.AllNames P
  context : tree.context scope = context

namespace Scope.Mentions

variable {P : String → Prop} {context : Store × NameSupply} {after : ScopeTree}

section

variable (h : scope.Mentions P context tree)
include h

theorem later (hspares : tree.Spares tree.frames.size after) : scope.Mentions P context after := by
  have hframe : ∀ number ∈ scope, after.frame number = tree.frame number :=
    fun number hnumber => hspares.frame_eq (h.within number hnumber)
  refine ⟨fun number hnumber => ?_, fun number hnumber => ?_, ?_⟩
  · exact (h.within number hnumber).trans_le hspares.size_le
  · rw [hframe number hnumber]
    exact h.statics number hnumber
  · exact (context_congr fun number hnumber => by rw [hframe number hnumber]).trans h.context

theorem cons (hnumber : number < tree.frames.size)
    (hstatics : (tree.frame number).statics.AllNames P)
    (hcontext : (tree.frame number).context = none) :
    Scope.Mentions P context tree (number :: scope) := by
  refine ⟨?_, ?_, ?_⟩
  · exact forall_mem_cons.mpr ⟨hnumber, h.within⟩
  · exact forall_mem_cons.mpr ⟨hstatics, h.statics⟩
  · rw [context_cons, hcontext]
    exact h.context

theorem push {frame : Frame} (hstatics : frame.statics.AllNames P)
    (hcontext : frame.context = none) :
    (tree.push scope frame).1.Mentions P context (tree.push scope frame).2 := by
  refine (h.later (spares_push le_rfl scope frame)).cons (by simp [ScopeTree.push]) ?_ ?_
  · rw [frame_push]
    exact hstatics
  · rw [frame_push]
    exact hcontext

theorem nested : (tree.nested scope).1.Mentions P context (tree.nested scope).2 :=
  h.push allNames_empty rfl

theorem changesSince (limit : Nat) : (tree.changesSince scope limit).statics.AllNames P :=
  changesSince_of (K := fun changes => changes.statics.AllNames P) allNames_empty
    (fun _ hchanges number hnumber => hchanges.orElse (h.statics number hnumber).settled) limit

end

end Scope.Mentions

/-! ## Evaluation -/

def Eval.Mentions (P : String → Prop) (context : Store × NameSupply)
    (step : Scope → Decl → Eval Scope) : Prop :=
  ∀ (scope : Scope) (declaration : Decl) (tree : ScopeTree) (result : Scope)
    (after : ScopeTree), scope.Mentions P context tree →
    step scope declaration tree = .ok result after →
    result.Mentions P context after

namespace Eval

variable {P : String → Prop} {context : Store × NameSupply} {steps : Nat}
  {scope result : Scope} {tree after : ScopeTree}

theorem Mentions.foldlM {step : Scope → Decl → Eval Scope} (hstep : Mentions P context step)
    {declarations : List Decl} (hscope : scope.Mentions P context tree)
    (h : declarations.foldlM step scope tree = .ok result after) :
    result.Mentions P context after := by
  induction declarations generalizing scope tree with
  | nil =>
    obtain ⟨rfl, rfl⟩ := pure_eq_ok_state h
    exact hscope
  | cons declaration rest ih =>
    rw [foldlM_cons] at h
    obtain ⟨inside, middle, hfirst, hrest⟩ := bind_eq_ok_state h
    exact ih (hstep _ _ _ _ _ hscope hfirst) hrest

theorem mentions_of_declares {action : Eval Scope} (hscope : scope.Mentions P context tree)
    (haction : ∀ {bound}, (Watch.any tree.frames.size).Declares bound scope action)
    (h : action tree = .ok result after) : result.Mentions P context after := by
  obtain ⟨number, rfl, hlower, hupper, hframe⟩ :=
    (opened_of_declares le_rfl haction h).frame hscope.within.head
  have hgrown := (grows_of_ensures haction).of_ok h le_rfl
  refine (hscope.later hgrown.spares).cons hupper ?_ hframe.context
  rw [hframe.statics]
  exact allNames_empty

section Rules

variable (hscope : scope.Mentions P context tree) (hinner : Mentions P context (evalDecl steps))
include hscope hinner

theorem mentions_localIn {hidden body : Decl} {span : Span}
    (h : evalDecl (steps + 1) scope (.localIn hidden body span) tree = .ok result after) :
    result.Mentions P context after := by
  unfold evalDecl at h
  obtain ⟨within, middle, hhidden, h⟩ := bind_eq_ok_state h
  obtain ⟨mark, marked, hmark, h⟩ := bind_eq_ok_state h
  cases hmark
  obtain ⟨inside, final, hbody, h⟩ := bind_eq_ok_state h
  obtain ⟨changes, final', hlook, h⟩ := bind_eq_ok_state h
  cases hlook
  cases h
  have hwithin := hinner _ _ _ _ _ hscope hhidden
  have hinside := hinner _ _ _ _ _ hwithin.nested hbody
  have hfirst := (grows_evalDecl _ _ _).of_ok hhidden le_rfl
  have hsecond := (grows_evalDecl _ _ _).of_ok hbody le_rfl
  have hlater := ((hscope.later hfirst.spares).later
    (spares_push le_rfl within _)).later hsecond.spares
  exact hlater.push (hinside.changesSince _) rfl

theorem mentions_decl (h : evalDecl (steps + 1) scope declaration tree = .ok result after) :
    result.Mentions P context after := by
  have hdeclares := fun hsimple : declaration.IsSimple =>
    mentions_of_declares hscope ((watched _ steps).declares_decl scope hsimple) h
  cases declaration with
  | localIn hidden body span => exact mentions_localIn hscope hinner h
  | seq declarations span =>
    exact hinner.foldlM hscope h
  | fixity status names span =>
    unfold evalDecl at h
    simp only [declareFixity_eq] at h
    cases h
    exact hscope.push allNames_empty rfl
  | _ => exact hdeclares trivial

end Rules

end Eval

open Eval

theorem mentions_evalDecl (steps : Nat) : Eval.Mentions P context (evalDecl steps) := by
  induction steps with
  | zero =>
    intro scope declaration tree result after _ h
    cases h
  | succ steps ih =>
    intro scope declaration tree result after hscope h
    exact mentions_decl hscope ih h

theorem mentions_evalTopLevel (steps : Nat) : Eval.Mentions P context (evalTopLevel steps) := by
  intro scope declaration tree result after hscope h
  unfold evalTopLevel at h
  obtain ⟨group, grouped, hgroup, h⟩ := bind_eq_ok_state h
  cases hgroup
  obtain ⟨inside, middle, hdeclaration, h⟩ := bind_eq_ok_state h
  obtain ⟨changes, looked, hlooked, h⟩ := bind_eq_ok_state h
  cases hlooked
  cases h
  have hinside := mentions_evalDecl steps _ _ _ _ _ hscope.nested hdeclaration
  have hgrown := (grows_evalDecl _ _ _).of_ok hdeclaration le_rfl
  have hlater := (hscope.later (spares_push le_rfl scope _)).later hgrown.spares
  exact hlater.push (hinside.changesSince _) rfl

variable {program : Program}

/-! ## Elaboration -/

theorem context_elabTopLevel {scope result : Scope} {state after : ElabState}
    (h : elabTopLevel scope declaration state = .ok result after) :
    after.tree.context result = (after.store, after.supply) := by
  unfold elabTopLevel at h
  obtain ⟨_, first, _, h⟩ := bind_eq_ok_state h
  obtain ⟨group, second, _, h⟩ := bind_eq_ok_state h
  obtain ⟨inner, third, _, h⟩ := bind_eq_ok_state h
  obtain ⟨changes, fourth, _, h⟩ := bind_eq_ok_state h
  unfold Elab.settle at h
  obtain ⟨statics, fifth, _, h⟩ := bind_eq_ok_state h
  obtain ⟨pushed, sixth, hpushed, h⟩ := bind_eq_ok_state h
  cases hpushed
  cases h
  exact context_write (by simp) fun _ => rfl

theorem context_elabProgram {scope result : Scope} {state after : ElabState}
    (hstate : state.tree.context scope = (state.store, state.supply))
    (h : elabProgram scope program state = .ok result after) :
    after.tree.context result = (after.store, after.supply) := by
  unfold elabProgram at h
  generalize program.declarations = declarations at h
  induction declarations generalizing scope state with
  | nil =>
    obtain ⟨rfl, rfl⟩ := pure_eq_ok_state h
    exact hstate
  | cons declaration rest ih =>
    rw [foldlM_cons] at h
    obtain ⟨inside, middle, hfirst, hrest⟩ := bind_eq_ok_state h
    exact ih (context_elabTopLevel hfirst) hrest

/-- All names that a scope sees or that are kept with it are spent for the
supply that elaboration goes on with. -/
def Scope.Fresh (tree : ScopeTree) (scope : Scope) : Prop := ∃ context : Store × NameSupply,
    scope.Mentions (Spent context.2.next) context tree ∧ context.1.AllNames (Spent context.2.next)

theorem Scope.Fresh.later {tree after : ScopeTree} (h : scope.Fresh tree)
    (hspares : tree.Spares tree.frames.size after) : scope.Fresh after := by
  obtain ⟨context, hscope, hstore⟩ := h
  exact ⟨context, hscope.later hspares, hstore⟩

def Program.Starless (program : Program) : Prop := ∀ declaration ∈ program.declarations,
    declaration.WrittenWith fun name => '*' ∉ name.toList

theorem starless_readTokens {source : String} {tokens : List Token} {operators : OperatorTable}
    (htokens : tokensOf source = .ok tokens) (hread : readTokens tokens operators = .ok program) :
    program.Starless := by
  unfold tokensOf at htokens
  obtain ⟨stripped, -, htokens⟩ := mapError_bind_eq_ok htokens
  have htokenize : tokenize stripped = .ok tokens := by
    cases hresult : tokenize stripped with
    | ok found =>
      rw [hresult] at htokens
      cases htokens
      rfl
    | error error =>
      rw [hresult] at htokens
      cases htokens
  unfold readTokens at hread
  split at hread
  · rename_i hprogram
    cases hread
    exact (Reading.readProgram_told (tokenize_variables htokenize) hprogram).1
  · cases hread

theorem fresh_elabProgram {scope result : Scope} {strict : Bool}
    {after : ElabState} (hscope : scope.Fresh tree) (hprogram : program.Starless)
    (h : elabProgram scope program (.start tree scope strict) = .ok result after) :
    result.Fresh after.tree := by
  obtain ⟨⟨store, supply⟩, hmentions, hstore⟩ := hscope
  have hstart : ElabState.start tree scope strict = { tree, store, supply, strict } := by
    rw [ElabState.start, hmentions.context]
  rw [hstart] at h
  let hygiene := Hygiene.spending tree scope
  have hholds : hygiene.Holds { tree, store, supply, strict } :=
    { size := le_rfl
      statics := by
        rintro number (hnew | hnumber)
        · have hframe : tree.frame number = {} := by
            simp [ScopeTree.frame, Array.getElem?_eq_none hnew]
          change (tree.frame number).statics.AllNames _
          rw [hframe]
          exact allNames_empty
        · exact hmentions.statics number hnumber
      dynamics := fun _ => trivial
      store := hstore
      monomorphic := by simp
      explicit := by simp
      flexible := by simp }
  have hcovers : hygiene.Covers scope := fun _ hnumber => .inr hnumber
  have hgives : hygiene.GivesScope ⟨{ tree, store, supply, strict }⟩ (elabProgram scope program) :=
    Hygiene.givesScope_elabProgram hcovers hprogram
  have hafter := hgives _ hholds le_rfl
  rw [h] at hafter
  obtain ⟨hafter, -, hresult⟩ := hafter
  refine ⟨(after.store, after.supply), ⟨?_, ?_, ?_⟩, hafter.store⟩
  · exact (extended_elabProgram hmentions.within h).within hmentions.within
  · exact fun number hnumber => hafter.statics number (hresult number hnumber)
  · exact context_elabProgram hmentions.context h

/-! ## Inputs -/

section Inputs

variable {steps : Nat} {options : Options} {session : Session} {reply : Reply}
  {after : ScopeTree} (hsession : session.scope.Fresh session.tree)
include hsession

theorem fresh_elaborateInput (hprogram : program.Starless) {warnings : List Warning}
    (h : elaborateInput options program session = (.ok (scope, warnings), tree))
    :
    scope.Fresh tree := by
  unfold elaborateInput at h
  split at h
  · cases h
    exact hsession
  · split at h
    · rename_i hresult
      cases h
      exact fresh_elabProgram hsession hprogram hresult
    · cases h

theorem fresh_interpretProgram (hprogram : program.Starless)
    (h : interpretProgram steps options program session = (.ok reply, after)) :
    reply.scope.Fresh after := by
  have hspares := (interpretProgram_outgrows steps options program session).spares
  rw [h] at hspares
  unfold interpretProgram at h
  split at h
  · cases h
  rename_i scope warnings tree helaborated
  have hfresh := fresh_elaborateInput hsession hprogram helaborated
  split at h
  · cases h
    exact hfresh
  split at h
  · rename_i hevaluated
    cases h
    obtain ⟨context, hscope, hstore⟩ := hfresh
    exact ⟨context, (mentions_evalTopLevel steps).foldlM hscope hevaluated, hstore⟩
  · cases h
    exact hsession.later hspares
  · cases h
  · cases h

theorem fresh_interpret {source : String}
    (h : interpret steps options source session = (.ok reply, after)) :
    reply.scope.Fresh after := by
  unfold interpret at h
  split at h
  · cases h
  rename_i tokens htokens
  unfold interpretTokens at h
  split at h
  · cases h
  rename_i program hread
  exact fresh_interpretProgram hsession (starless_readTokens htokens hread) h

end Inputs

/-! ## Sessions -/

namespace Session

/-- A tree and the scopes that inputs have returned so far.  An input goes on
from any of them, whatever has been returned since. -/
inductive Reached : ScopeTree → List Scope → Prop
  | basic : Reached Session.basic.tree [Session.basic.scope]
  | initial : Reached Session.initial.tree [Session.initial.scope]
  | reply {tree scopes scope steps options source reply after} :
      Reached tree scopes → scope ∈ scopes →
      interpret steps options source ⟨tree, scope⟩ = (.ok reply, after) →
      Reached after (reply.scope :: scopes)
  | error {tree scopes scope steps options source error after} :
      Reached tree scopes → scope ∈ scopes →
      interpret steps options source ⟨tree, scope⟩ = (.error error, after) →
      Reached after scopes

theorem fresh_basic : Session.basic.scope.Fresh Session.basic.tree := by
  have hwithin : Session.basic.scope.Within Session.basic.tree := by decide +kernel
  have hnames : ∀ name ∈ (Initial.tree.frame 0).statics.names,
      '*' ∉ name.toList := by decide +kernel
  refine ⟨({}, {}), ⟨hwithin, ?_, ?_⟩, Store.allNames_empty⟩
  · intro number hnumber name hname
    cases mem_singleton.mp hnumber
    exact spent_of_not_mem_star (hnames name hname) _
  · have hcontext : (Initial.tree.frame 0).context.isNone = true := by decide +kernel
    change Initial.tree.context [0] = _
    rw [context_cons, Option.isNone_iff_eq_none.mp hcontext]
    rfl

theorem fresh_load {session : Session}
    (h : session.scope.Fresh session.tree) (steps : Nat) (source : String) :
    (session.load steps source).scope.Fresh (session.load steps source).tree := by
  have hspares := (interpret_outgrows steps {} source session).spares
  unfold load
  split
  · rename_i hreply
    exact fresh_interpret h hreply
  · rename_i herror
    rw [herror] at hspares
    exact h.later hspares

theorem Reached.fresh {scopes : List Scope}
    (h : Reached tree scopes) : ∀ scope ∈ scopes, scope.Fresh tree := by
  induction h with
  | basic => simpa using fresh_basic
  | initial =>
    have hinitial := fresh_load fresh_basic 10000 preludeText
    exact forall_mem_singleton.mpr hinitial
  | @reply tree scopes scope steps options source reply after _ hscope hreply ih =>
    have hspares := (interpret_outgrows steps options source ⟨tree, scope⟩).spares
    rw [hreply] at hspares
    refine forall_mem_cons.mpr ⟨fresh_interpret (ih scope hscope) hreply, fun other hother => ?_⟩
    exact (ih other hother).later hspares
  | @error tree scopes scope steps options source error after _ hscope herror ih =>
    have hspares := (interpret_outgrows steps options source ⟨tree, scope⟩).spares
    rw [herror] at hspares
    exact fun other hother => (ih other hother).later hspares

theorem Reached.load {session : Session} {scopes : List Scope} (h : Reached session.tree scopes)
    (hscope : session.scope ∈ scopes) (steps : Nat) (source : String) :
    ∃ scopes, Reached (session.load steps source).tree scopes ∧
      (session.load steps source).scope ∈ scopes := by
  unfold Session.load
  split
  · rename_i hreply
    exact ⟨_, .reply h hscope hreply, mem_cons_self⟩
  · rename_i herror
    exact ⟨scopes, .error h hscope herror, hscope⟩

end Session

/-- The names in use in a scope: those in the types that its frames declare,
and those that the store kept with it binds, restricts or mentions. -/
def ScopeTree.namesInUse (tree : ScopeTree) (scope : Scope) : List String :=
  (scope.flatMap fun number => (tree.frame number).statics.names) ++ (tree.context scope).1.names

theorem Scope.Fresh.spent (h : scope.Fresh tree) :
    ∀ name ∈ tree.namesInUse scope, Spent (tree.context scope).2.next name := by
  obtain ⟨context, hscope, hstore⟩ := h
  rw [hscope.context]
  intro name hname
  rcases mem_append.mp hname with hname | hname
  · obtain ⟨number, hnumber, hname⟩ := mem_flatMap.mp hname
    exact hscope.statics number hnumber name hname
  · rw [hscope.context] at hname
    exact hstore name hname

/-- In every scope that a session has returned, the names in use that the
supply may give have numbers below the one it has come to.  So it gives none
of them again, now or later. -/
theorem Session.Reached.names_fresh {tree : ScopeTree} {scopes : List Scope}
    (h : Reached tree scopes) {scope : Scope} (hscope : scope ∈ scopes) :
    (∀ name ∈ tree.namesInUse scope, ∀ number, name = NameSupply.name number ∨
          name = Ty.equalityName (NameSupply.name number) →
        number < (tree.context scope).2.next) ∧
    ∀ later : NameSupply, (tree.context scope).2.next ≤ later.next →
      later.fresh.1 ∉ tree.namesInUse scope ∧
        ∀ like, (later.freshLike like).1 ∉ tree.namesInUse scope := by
  have hspent := (h.fresh scope hscope).spent
  refine ⟨fun name hname number hnumber => (hspent name hname).lt hnumber,
    fun later hlater => ⟨fun hname => ?_, fun like hname => ?_⟩⟩
  · have hlt := (hspent _ hname).lt (.inl rfl)
    omega
  · obtain ⟨number, hlower, -, hform⟩ := (issued_freshLike later like).numbered
      _ (List.mem_singleton_self _)
    have hlt := (hspent _ hname).lt hform
    omega

/-- Once the identity function is declared the first name is in use, and the
supply has gone on. -/
theorem Session.Reached.names_fresh_identity : ∃ tree scope, Reached tree [scope, .root] ∧
      NameSupply.name 0 ∈ tree.namesInUse scope ∧
      0 < (tree.context scope).2.next ∧
      ∀ like, ((tree.context scope).2.freshLike like).1 ∉ tree.namesInUse scope := by
  have hfacts : (match interpret 9 {} "val f = fn x => x" .basic with
      | (.error _, _) => false
      | (.ok answer, tree) =>
        decide (NameSupply.name 0 ∈ tree.namesInUse answer.scope)) = true := by
    decide +kernel
  rcases hresult : interpret 9 {} "val f = fn x => x" .basic with
    ⟨error | answer, tree⟩
  · simp [hresult] at hfacts
  · simp only [hresult, decide_eq_true_eq] at hfacts
    have hreached : Reached tree [answer.scope, .root] :=
      .reply .basic (List.mem_singleton_self _) hresult
    obtain ⟨hnumbers, hfresh⟩ := hreached.names_fresh List.mem_cons_self
    exact ⟨tree, answer.scope, hreached, hfacts,
      hnumbers _ hfacts 0 (.inl rfl), (hfresh _ le_rfl).2⟩

/-- The scopes of the functions that are stored in cells. -/
def ScopeTree.storedScopes (tree : ScopeTree) : List Scope :=
  tree.memory.toList.filterMap fun value =>
    match value with
    | .closure _ scope => some scope
    | _ => none

/-- A function is stored before an exception escapes.  It keeps the scope of
an input of which the names are given out again. -/
theorem Session.Reached.names_fresh_stored : ∃ tree scopes, Reached tree scopes ∧ ∃ scope ∈ scopes,
      ∃ stored ∈ tree.storedScopes,
        (tree.context scope).2.fresh.1 ∈ tree.namesInUse stored := by
  obtain ⟨_, hfirst, hscope⟩ := Reached.basic.load (List.mem_singleton_self _) 30
    "val r = ref (fn (x : int) => x)"
  obtain ⟨scopes, hsecond, hscope⟩ := hfirst.load hscope 30
    "val f = fn x => x val u = r := (fn (x : int) => x + 1) val z = 1 div 0"
  refine ⟨_, scopes, hsecond, _, hscope, ?_⟩
  decide +kernel

end Sml
