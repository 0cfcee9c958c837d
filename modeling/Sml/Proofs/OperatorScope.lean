import Sml.Proofs.Table
import Sml.Syntax.Phrase

/-!
# Which operators a declaration leaves

Two answers are given by recursion on declarations.  By the rules of scope the
operators declared in a structure, in a functor or before `in` end with it,
and what a declaration declares does not depend on what was there before.
Reading departs from them in two places: it takes declarations that are a
functor's argument as if they stood outside, and of what `local` declares after
`in` it keeps the entries that are new there.  Programs that use neither get
the same operators both ways.
-/

namespace Sml

open List OperatorTable Table

namespace Table

variable {α : Type}

def insertAll (table : Table α) (names : List String) (value : α) : Table α :=
  names.foldl (fun table name => insert table name value) table

theorem ordered_insertAll {table : Table α} (h : Ordered table)
    (names : List String) (value : α) : Ordered (insertAll table names value) := by
  unfold insertAll
  induction names generalizing table with
  | nil => exact h
  | cons name names ih => exact ih (ordered_insert h name value)

theorem override_assoc {first second third : Table α} (hfirst : Ordered first)
    (hsecond : Ordered second) (hthird : Ordered third) :
    override (override first second) third = override first (override second third) := by
  refine eq_of_get? (ordered_override (ordered_override hfirst _) _)
    (ordered_override hfirst _) fun name => ?_
  rw [get?_override _ hthird, get?_override _ hsecond,
    get?_override _ (ordered_override hsecond _), get?_override _ hthird,
    Option.or_assoc]

theorem get?_insertAll (table : Table α) (names : List String) (value : α) (name : String) :
    get? (insertAll table names value) name =
      if name ∈ names then some value else get? table name := by
  unfold insertAll
  induction names generalizing table with
  | nil => simp
  | cons first names ih =>
    rw [List.foldl_cons, ih, get?_insert]
    by_cases hname : name ∈ names
    · simp [hname]
    · simp [hname, eq_comm]

theorem insertAll_eq_override {table : Table α} (h : Ordered table) (names : List String)
    (value : α) : insertAll table names value = override table (insertAll [] names value) := by
  have hall : Ordered (insertAll [] names value) := ordered_insertAll ordered_nil names value
  refine eq_of_get? (ordered_insertAll h names value) (ordered_override h _) fun name => ?_
  rw [get?_override _ hall, get?_insertAll, get?_insertAll]
  split
  · rfl
  · rfl

end Table

mutual

def Decl.operators : Decl → OperatorTable
  | .fixity status names _ => insertAll [] names status
  | .localIn _ body _ => body.operators
  | .seq declarations _ => Decl.operatorsOfList declarations
  | _ => []

def Decl.operatorsOfList : List Decl → OperatorTable
  | [] => []
  | declaration :: rest =>
    override declaration.operators (Decl.operatorsOfList rest)

end

mutual

theorem Decl.ordered_operators (declaration : Decl) : Table.Ordered declaration.operators := by
  cases declaration with
  | fixity status names span => exact ordered_insertAll ordered_nil names status
  | localIn hidden body span =>
    exact Decl.ordered_operators body
  | seq declarations span =>
    exact Decl.ordered_operatorsOfList declarations
  | _ => exact ordered_nil

theorem Decl.ordered_operatorsOfList (declarations : List Decl) :
    Table.Ordered (Decl.operatorsOfList declarations) := by
  cases declarations with
  | nil => exact ordered_nil
  | cons declaration rest =>
    exact ordered_override (Decl.ordered_operators declaration) _

end

variable {table : OperatorTable}

section Read

-- Tells the bodies of structures that are written without `struct`.
variable (bare : Span → Bool)

mutual

def Decl.operatorsRead : Decl → OperatorTable → OperatorTable
  | .fixity status names _, table => insertAll table names status
  | .localIn hidden body _, table =>
    let between := hidden.operatorsRead table
    override table (changes between (body.operatorsRead between))
  | .seq declarations _, table => Decl.operatorsReadInList declarations table
  | .structures bindings _, table =>
    Decl.operatorsReadInStructures bindings table
  | .functors bindings _, table => Decl.operatorsReadInFunctors bindings table
  | _, table => table

def Decl.operatorsReadInList : List Decl → OperatorTable → OperatorTable
  | [], table => table
  | declaration :: rest, table =>
    Decl.operatorsReadInList rest (declaration.operatorsRead table)

def Decl.operatorsReadInStructures : List (StrBind StrExp) → OperatorTable → OperatorTable
  | [], table => table
  | ⟨_, body, _⟩ :: rest, table =>
    Decl.operatorsReadInStructures rest (body.operatorsRead table)

def Decl.operatorsReadInFunctors : List (FunctorBind StrExp) → OperatorTable → OperatorTable
  | [], table => table
  | ⟨_, _, _, body, _⟩ :: rest, table =>
    Decl.operatorsReadInFunctors rest (body.operatorsRead table)

def StrExp.operatorsRead : StrExp → OperatorTable → OperatorTable
  | .body declaration span, table =>
    if bare span then declaration.operatorsRead table else table
  | .ascribed _ body _ _, table => body.operatorsRead table
  | .apply _ argument _, table => argument.operatorsRead table
  | .name _ _, table => table
  | .letIn _ _ _, table => table

end

theorem Decl.operatorsReadInList_eq (declarations : List Decl) (table : OperatorTable) :
    Decl.operatorsReadInList bare declarations table = declarations.foldl
        (fun table declaration => declaration.operatorsRead bare table)
        table := by
  induction declarations generalizing table with
  | nil => rfl
  | cons declaration rest ih => rw [operatorsReadInList, ih, List.foldl_cons]

theorem Decl.operatorsReadInStructures_eq (bindings : List (StrBind StrExp))
    (table : OperatorTable) :
    Decl.operatorsReadInStructures bare bindings table = bindings.foldl
        (fun table binding => binding.body.operatorsRead bare table)
        table := by
  induction bindings generalizing table with
  | nil => rfl
  | cons binding rest ih => rw [operatorsReadInStructures, ih, List.foldl_cons]

theorem Decl.operatorsReadInFunctors_eq (bindings : List (FunctorBind StrExp))
    (table : OperatorTable) :
    Decl.operatorsReadInFunctors bare bindings table = bindings.foldl
        (fun table binding => binding.body.operatorsRead bare table)
        table := by
  induction bindings generalizing table with
  | nil => rfl
  | cons binding rest ih => rw [operatorsReadInFunctors, ih, List.foldl_cons]

/-! ## Where the two answers agree -/

mutual

/-- No functor's argument written without `struct` declares an operator, and
no `local` declares one both before and after `in`. -/
def Decl.declaresApart : Decl → Prop
  | .localIn hidden body _ =>
    hidden.declaresApart ∧ body.declaresApart ∧
      ∀ name ∈ keys hidden.operators, name ∉ keys body.operators
  | .seq declarations _ => Decl.declareApart declarations
  | .structures bindings _ => Decl.structuresDeclareApart bindings
  | .functors bindings _ => Decl.functorsDeclareApart bindings
  | _ => True

def Decl.declareApart : List Decl → Prop
  | [] => True
  | declaration :: rest => declaration.declaresApart ∧ Decl.declareApart rest

def Decl.structuresDeclareApart : List (StrBind StrExp) → Prop
  | [] => True
  | ⟨_, body, _⟩ :: rest =>
    body.declaresApart ∧ Decl.structuresDeclareApart rest

def Decl.functorsDeclareApart : List (FunctorBind StrExp) → Prop
  | [] => True
  | ⟨_, _, _, body, _⟩ :: rest =>
    body.declaresApart ∧ Decl.functorsDeclareApart rest

def StrExp.declaresApart : StrExp → Prop
  | .body declaration span =>
    bare span = true → declaration.declaresApart ∧ declaration.operators = []
  | .ascribed _ body _ _ => body.declaresApart
  | .apply _ argument _ => argument.declaresApart
  | .name _ _ => True
  | .letIn _ _ _ => True

end

theorem OperatorTable.ordered_changes (earlier : OperatorTable) (h : Table.Ordered table) :
    Table.Ordered (changes earlier table) := by
  unfold Table.Ordered Table.keys at h ⊢
  rw [pairwise_map] at h ⊢
  exact h.filter _

theorem OperatorTable.get?_changes (earlier : OperatorTable)
    (h : Table.Ordered table) (name : String) :
    get? (changes earlier table) name =
      if get? earlier name = get? table name then none
      else get? table name := by
  rw [changes, get?_filter h]
  cases get? table name with
  | none => simp
  | some fixity => simp [Option.filter, ite_not]

mutual

theorem Decl.operatorsRead_eq (declaration : Decl) (h : declaration.declaresApart bare)
    {table : OperatorTable} (htable : Table.Ordered table) :
    declaration.operatorsRead bare table = override table declaration.operators := by
  cases declaration with
  | localIn hidden body span =>
    obtain ⟨hhidden, hbody, hapart⟩ := h
    have hbetween := ordered_override htable hidden.operators
    have hlast := ordered_override hbetween body.operators
    unfold Decl.operatorsRead Decl.operators
    simp only
    rw [Decl.operatorsRead_eq hidden hhidden htable, Decl.operatorsRead_eq body hbody hbetween]
    refine eq_of_get? (ordered_override htable _)
      (ordered_override htable _) fun name => ?_
    rw [get?_override _ (ordered_changes _ hlast),
      get?_changes _ hlast,
      get?_override _ body.ordered_operators,
      get?_override _ hidden.ordered_operators,
      get?_override _ body.ordered_operators]
    cases hget : get? body.operators name with
    | none => simp
    | some fixity =>
      -- What is declared after `in` is as before it in `hidden`.
      have hmem : name ∈ keys body.operators := by
        by_contra hnot
        rw [(get?_eq_none_iff _ _).mpr hnot] at hget
        cases hget
      have hhidden : get? hidden.operators name = none :=
        (get?_eq_none_iff _ _).mpr fun hmem' => hapart name hmem' hmem
      rw [hhidden]
      by_cases hsame : get? table name = some fixity
      · simp [hsame]
      · simp [hsame]
  | seq declarations span =>
    exact Decl.operatorsReadInList_eq_override declarations h htable
  | fixity status names span =>
    exact insertAll_eq_override htable names status
  | structures bindings span =>
    exact Decl.operatorsReadInStructures_eq_self bindings h htable
  | functors bindings span =>
    exact Decl.operatorsReadInFunctors_eq_self bindings h htable
  | _ => rfl

theorem Decl.operatorsReadInList_eq_override (declarations : List Decl)
    (h : Decl.declareApart bare declarations) {table : OperatorTable}
    (htable : Table.Ordered table) :
    Decl.operatorsReadInList bare declarations table =
      override table (Decl.operatorsOfList declarations) := by
  cases declarations with
  | nil => rfl
  | cons declaration rest =>
    unfold Decl.operatorsReadInList Decl.operatorsOfList
    rw [Decl.operatorsRead_eq declaration h.1 htable, Decl.operatorsReadInList_eq_override rest h.2
        (ordered_override htable _)]
    exact override_assoc htable declaration.ordered_operators
      (Decl.ordered_operatorsOfList rest)

theorem Decl.operatorsReadInStructures_eq_self (bindings : List (StrBind StrExp))
    (h : Decl.structuresDeclareApart bare bindings) {table : OperatorTable}
    (htable : Table.Ordered table) :
    Decl.operatorsReadInStructures bare bindings table = table := by
  cases bindings with
  | nil => rfl
  | cons binding rest =>
    obtain ⟨name, body, span⟩ := binding
    unfold Decl.operatorsReadInStructures
    rw [StrExp.operatorsRead_eq body h.1 htable]
    exact Decl.operatorsReadInStructures_eq_self rest h.2 htable

theorem Decl.operatorsReadInFunctors_eq_self (bindings : List (FunctorBind StrExp))
    (h : Decl.functorsDeclareApart bare bindings) {table : OperatorTable}
    (htable : Table.Ordered table) :
    Decl.operatorsReadInFunctors bare bindings table = table := by
  cases bindings with
  | nil => rfl
  | cons binding rest =>
    obtain ⟨name, parameterName, parameter, body, span⟩ := binding
    unfold Decl.operatorsReadInFunctors
    rw [StrExp.operatorsRead_eq body h.1 htable]
    exact Decl.operatorsReadInFunctors_eq_self rest h.2 htable

theorem StrExp.operatorsRead_eq (body : StrExp) (h : body.declaresApart bare)
    {table : OperatorTable} (htable : Table.Ordered table) :
    body.operatorsRead bare table = table := by
  cases body with
  | body declaration span =>
    unfold StrExp.operatorsRead
    split
    · rename_i hbare
      rw [Decl.operatorsRead_eq declaration (h hbare).1 htable, (h hbare).2]
      rfl
    · rfl
  | ascribed hides body signature span =>
    exact StrExp.operatorsRead_eq body h htable
  | apply functor argument span =>
    exact StrExp.operatorsRead_eq argument h htable
  | name | letIn => rfl

end

end Read

namespace Program

def operators (program : Program) : OperatorTable := Decl.operatorsOfList program.declarations

theorem ordered_operators (program : Program) : Table.Ordered program.operators :=
  Decl.ordered_operatorsOfList program.declarations

def operatorsRead (bare : Span → Bool) (program : Program)
    (table : OperatorTable) : OperatorTable :=
  Decl.operatorsReadInList bare program.declarations table

def declaresApart (bare : Span → Bool) (program : Program) : Prop :=
  Decl.declareApart bare program.declarations

theorem operatorsRead_eq {bare : Span → Bool} {program : Program}
    (h : program.declaresApart bare) (htable : Table.Ordered table) :
    program.operatorsRead bare table = override table program.operators :=
  Decl.operatorsReadInList_eq_override bare program.declarations h htable

end Program

end Sml
