import Sml.Proofs.ElaborationScope
import Sml.Proofs.ReadingNames
import Sml.Session.Interpret

/-!
# When reading and elaboration agree on operators

After a program has been read the cursor holds the operators in force, and so
does the scope after the program has been elaborated.  Both are determined by
the declarations alone.  They agree where reading the declarations comes to
what the rules of scope say, in particular where no operator is declared on
both sides of an `in` or in a functor's argument written without `struct`.
-/

namespace Sml

open Reading Table

theorem elabProgram_operators {tree : ScopeTree} {scope result : Scope} (hscope : scope.Within tree)
    {program : Program} {strict : Bool} {state : ElabState}
    (h : elabProgram scope program (.start tree scope strict) = .ok result state) :
    state.tree.operators result = override (tree.operators scope) program.operators := by
  refine eq_of_get? (state.tree.ordered_operators result)
    (ordered_override (tree.ordered_operators scope) _) fun name => ?_
  rw [(extended_elabProgram hscope h).get?_operators hscope,
    get?_override _ program.ordered_operators]
  rfl

theorem readProgram_operators_eq_iff {session : Session}
    (hscope : session.scope.Within session.tree) {text : String} {tokens : List Token}
    (htokens : tokenize text = .ok tokens) {program : Program} {cursor : Cursor}
    (hread : readProgram (start tokens (session.tree.operators session.scope)) =
        .ok program cursor) {strict : Bool} {scope : Scope} {state : ElabState}
    (helaborated : elabProgram session.scope program
      (.start session.tree session.scope strict) = .ok scope state) :
    (cursor.operators = state.tree.operators scope ↔
      program.operatorsRead (Cursor.opens tokens.toArray) (session.tree.operators session.scope) =
        override (session.tree.operators session.scope) program.operators) ∧
    (program.declaresApart (Cursor.opens tokens.toArray) →
      cursor.operators = state.tree.operators scope) := by
  rw [elabProgram_operators hscope helaborated,
    readProgram_operators (tokenize_startsInOrder htokens) hread]
  refine ⟨Iff.rfl, fun hapart => ?_⟩
  exact Program.operatorsRead_eq hapart (session.tree.ordered_operators _)

/-! ## Texts -/

/-- The operators after a text has been read, and after it has been
elaborated. -/
def operatorTables (session : Session) (text : String) : Option (OperatorTable × OperatorTable) :=
  match tokenize text with
  | .error _ => none
  | .ok tokens =>
    match readProgram (start tokens (session.tree.operators session.scope)) with
    | .error _ _ => none
    | .ok program cursor =>
      match elabProgram session.scope program (.start session.tree session.scope false) with
      | .error _ _ => none
      | .ok scope state => some (cursor.operators, state.tree.operators scope)

theorem operatorTables_eq_some {session : Session} {text : String}
    {tables : OperatorTable × OperatorTable} (h : operatorTables session text = some tables) :
    ∃ tokens program cursor scope state, tokenize text = .ok tokens ∧ readProgram
        (start tokens (session.tree.operators session.scope)) = .ok program cursor ∧
      elabProgram session.scope program
        (.start session.tree session.scope false) = .ok scope state ∧
      tables = (cursor.operators, state.tree.operators scope) := by
  unfold operatorTables at h
  split at h
  · cases h
  · rename_i tokens htokens
    split at h
    · cases h
    · rename_i program cursor hread
      split at h
      · cases h
      · rename_i scope state helaborated
        cases h
        exact ⟨tokens, program, cursor, scope, state, htokens, hread, helaborated, rfl⟩

/-- One operator is declared before `in` and another after it. -/
theorem readProgram_operators_eq_local : ∃ tokens program cursor scope state,
      tokenize "local infix 5 ++ in infixr 4 ** end" = .ok tokens ∧
      readProgram (start tokens (Session.basic.tree.operators .root)) =
          .ok program cursor ∧
      elabProgram .root program (.start Session.basic.tree .root false) = .ok scope state ∧
      cursor.operators = state.tree.operators scope ∧
      program.operatorsRead (Cursor.opens tokens.toArray) (Session.basic.tree.operators .root) =
        override (Session.basic.tree.operators .root)
          program.operators := by
  obtain ⟨tables, htables, hsame⟩ : ∃ tables,
      operatorTables .basic "local infix 5 ++ in infixr 4 ** end" = some tables ∧
        tables.1 = tables.2 := by
    decide +kernel
  obtain ⟨tokens, program, cursor, scope, state, htokens, hread, helaborated,
    rfl⟩ := operatorTables_eq_some htables
  have hscope : Session.basic.scope.Within Session.basic.tree := by
    decide +kernel
  exact ⟨tokens, program, cursor, scope, state, htokens, hread, helaborated, hsame,
    (readProgram_operators_eq_iff hscope htokens hread helaborated).1.mp hsame⟩

/-- Reading loses what `local` declares again after `in`, and keeps what a
functor's argument declares. -/
theorem operatorTables_differ : (operatorTables .basic "local infix 5 ++ in infix 5 ++ end").map
        (fun tables => (get? tables.1 "++", get? tables.2 "++")) =
      some (none, some (.left 5)) ∧
    (operatorTables .basic ("functor F (X : sig end) = struct end " ++
        "structure A = F (infix 6 ++)")).map
        (fun tables => (get? tables.1 "++", get? tables.2 "++")) =
      some (some (.left 6), none) := by
  decide +kernel

end Sml
