import Mathlib.Data.List.Induction
import Sml.Syntax.Fixity

/-!
# How operators group

Operands with operators between them are the leaves and the nodes of a binary
tree, read from left to right.  In a tree that is grouped by precedence no
operator on the inner edge of a subtree would have taken its operands
differently.  There is one such tree for every sequence: operators can be put
into it one after the other, and joining operands with the operators that wait
rebuilds every grouped tree from its sequence.
-/

namespace Sml

open List

inductive OperatorTree (ω α : Type) where
  | operand (value : α)
  | node (operator : ω) (left right : OperatorTree ω α)
deriving DecidableEq, Repr

namespace OperatorTree

variable {ω α β : Type}

def fold (leaf : α → β) (combine : ω → β → β → β) : OperatorTree ω α → β
  | operand value => leaf value
  | node operator left right =>
    combine operator (left.fold leaf combine) (right.fold leaf combine)

def inorder : OperatorTree ω α → List (α ⊕ ω)
  | operand value => [.inl value]
  | node operator left right => left.inorder ++ .inr operator :: right.inorder

def leftSpine : OperatorTree ω α → List ω
  | operand _ => []
  | node operator left _ => operator :: left.leftSpine

def rightSpine : OperatorTree ω α → List ω
  | operand _ => []
  | node operator _ right => operator :: right.rightSpine

/-- At every node, what ends on its left binds more strongly, or equally
strongly and the node does not group to the right; what begins on its right
binds more strongly, or equally strongly and groups to the right. -/
def Grouped (fixity : ω → Fixity) : OperatorTree ω α → Prop
  | operand _ => True
  | node operator left right =>
    (∀ inner ∈ left.rightSpine, (fixity operator).precedence < (fixity inner).precedence ∨
        (fixity operator).precedence = (fixity inner).precedence ∧
          (fixity operator).groupsRight = false) ∧
    (∀ inner ∈ right.leftSpine, (fixity operator).precedence < (fixity inner).precedence ∨
        (fixity operator).precedence = (fixity inner).precedence ∧
          (fixity inner).groupsRight = true) ∧
    left.Grouped fixity ∧ right.Grouped fixity

instance decidableGrouped (fixity : ω → Fixity) :
    (tree : OperatorTree ω α) → Decidable (tree.Grouped fixity)
  | operand _ => inferInstanceAs (Decidable True)
  | node _ left right =>
    have := decidableGrouped fixity left
    have := decidableGrouped fixity right
    inferInstanceAs (Decidable (_ ∧ _ ∧ _ ∧ _))

/-- What is known of the operands, and kept by joining them, is known of the
whole. -/
theorem fold_of {Q : β → Prop} {leaf : α → β} {combine : ω → β → β → β}
    (hcombine : ∀ {operator left right}, Q left → Q right → Q (combine operator left right))
    {tree : OperatorTree ω α} (h : ∀ value, .inl value ∈ tree.inorder → Q (leaf value)) :
    Q (tree.fold leaf combine) := by
  induction tree with
  | operand value => exact h value (by simp [inorder])
  | node operator left right ihleft ihright =>
    refine hcombine (ihleft fun value hvalue => ?_) (ihright fun value hvalue => ?_)
    · exact h value (by simp [inorder, hvalue])
    · exact h value (by simp [inorder, hvalue])

end OperatorTree

def spell {ω α : Type} (rest : List (ω × α)) : List (α ⊕ ω) :=
  rest.flatMap fun entry => [.inr entry.1, .inl entry.2]

def alternate {ω α : Type} : List α → List ω → List (α ⊕ ω)
  | operand :: operands, operator :: operators =>
    .inl operand :: .inr operator :: alternate operands operators
  | operands, _ => operands.map .inl

namespace Fixity

theorem takesBefore_iff (earlier next : Fixity) : earlier.takesBefore next = true ↔
      next.precedence < earlier.precedence ∨
        next.precedence = earlier.precedence ∧ next.groupsRight = false := by
  simp only [takesBefore, Bool.or_eq_true, decide_eq_true_eq, Bool.and_eq_true,
    beq_iff_eq, Bool.not_eq_true', @eq_comm Nat earlier.precedence]

theorem takesBefore_eq_false_iff (earlier next : Fixity) : earlier.takesBefore next = false ↔
      earlier.precedence < next.precedence ∨
        earlier.precedence = next.precedence ∧ next.groupsRight = true := by
  simp only [takesBefore, Bool.or_eq_false_iff, decide_eq_false_iff_not,
    Bool.and_eq_false_iff, beq_eq_false_iff_ne, Bool.not_eq_false']
  constructor
  · rintro ⟨hle, hne | hright⟩
    · exact .inl (by omega)
    · rcases Nat.lt_or_eq_of_le (Nat.le_of_not_lt hle) with hlt | heq
      · exact .inl hlt
      · exact .inr ⟨heq, hright⟩
  · rintro (hlt | ⟨heq, hright⟩)
    · exact ⟨by omega, .inl (by omega)⟩
    · exact ⟨by omega, .inr hright⟩

theorem takesBefore_of_later {first second next : Fixity} (hnext : first.takesBefore next = true)
    (hlater : first.takesBefore second = false) : second.takesBefore next = true := by
  rw [takesBefore_iff] at hnext ⊢
  rw [takesBefore_eq_false_iff] at hlater
  rcases hnext with hless | ⟨hsame, hleft⟩
  · exact .inl (by omega)
  · rcases hlater with hlater | ⟨hlater, -⟩
    · exact .inl (by omega)
    · exact .inr ⟨by omega, hleft⟩

end Fixity

namespace OperatorTree

variable {ω α β : Type} {fixity : ω → Fixity}
variable {next : ω} {tree : OperatorTree ω α}

theorem grouped_node {operator : ω} {left right : OperatorTree ω α} :
    (node operator left right).Grouped fixity ↔ (∀ inner ∈ left.rightSpine,
        (fixity inner).takesBefore (fixity operator) = true) ∧
      (∀ inner ∈ right.leftSpine, (fixity operator).takesBefore (fixity inner) = false) ∧
      left.Grouped fixity ∧ right.Grouped fixity := by
  simp only [Grouped, Fixity.takesBefore_iff, Fixity.takesBefore_eq_false_iff]

/-! ## Putting operators into a tree -/

variable (fixity) in
def push (operator : ω) (value : α) : OperatorTree ω α → OperatorTree ω α
  | operand first => node operator (operand first) (operand value)
  | node outer left right =>
    if (fixity outer).takesBefore (fixity operator) then
      node operator (node outer left right) (operand value)
    else node outer left (right.push operator value)

theorem inorder_push (operator : ω) (value : α) (tree : OperatorTree ω α) :
    (tree.push fixity operator value).inorder = tree.inorder ++ [.inr operator, .inl value] := by
  induction tree with
  | operand first => rfl
  | node outer left right _ ih =>
    rw [push]
    split
    · rfl
    · rw [inorder, ih, inorder, append_assoc, cons_append]

theorem takesBefore_rightSpine (hgrouped : tree.Grouped fixity)
    (h : ∀ outer ∈ tree.rightSpine.head?, (fixity outer).takesBefore (fixity next) = true) :
    ∀ inner ∈ tree.rightSpine, (fixity inner).takesBefore (fixity next) = true := by
  induction tree with
  | operand value => simp [rightSpine]
  | node outer left right _ ih =>
    obtain ⟨-, hright, -, hgrouped⟩ := grouped_node.mp hgrouped
    have houter := h outer rfl
    refine forall_mem_cons.mpr ⟨houter, ih hgrouped ?_⟩
    cases right with
    | operand value => simp [rightSpine]
    | node inner _ _ =>
      rintro _ ⟨⟩
      exact Fixity.takesBefore_of_later houter (hright inner (mem_cons_self ..))

theorem mem_leftSpine_push {operator inner : ω} {value : α}
    (h : inner ∈ (tree.push fixity operator value).leftSpine) :
    inner = operator ∨ inner ∈ tree.leftSpine := by
  cases tree with
  | operand first => simpa [push, leftSpine] using h
  | node outer left right =>
    rw [push] at h
    split at h
    · exact mem_cons.mp h
    · exact .inr h

theorem Grouped.push (h : tree.Grouped fixity) (operator : ω) (value : α) :
    (tree.push fixity operator value).Grouped fixity := by
  induction tree with
  | operand first => simp [OperatorTree.push, Grouped, leftSpine, rightSpine]
  | node outer left right _ ih =>
    rw [OperatorTree.push]
    split
    · rename_i htakes
      refine grouped_node.mpr ⟨?_, by simp [leftSpine], h, trivial⟩
      refine takesBefore_rightSpine h ?_
      rintro _ ⟨⟩
      exact htakes
    · rename_i htakes
      obtain ⟨hleft, hright, hgrouped, hrest⟩ := grouped_node.mp h
      refine grouped_node.mpr ⟨hleft, fun inner hinner => ?_, hgrouped, ih hrest⟩
      rcases mem_leftSpine_push hinner with rfl | hinner
      · exact eq_false_of_ne_true htakes
      · exact hright inner hinner

theorem exists_grouped (fixity : ω → Fixity) (first : α) (rest : List (ω × α)) :
    ∃ tree : OperatorTree ω α, tree.Grouped fixity ∧ tree.inorder = .inl first :: spell rest := by
  induction rest using List.reverseRecOn with
  | nil => exact ⟨operand first, trivial, rfl⟩
  | append_singleton rest entry ih =>
    obtain ⟨tree, hgrouped, hinorder⟩ := ih
    refine ⟨tree.push fixity entry.1 entry.2, hgrouped.push _ _, ?_⟩
    rw [inorder_push, hinorder]
    simp [spell]

/-! ## Rebuilding a tree -/

def first : OperatorTree ω α → α
  | operand value => value
  | node _ left _ => left.first

def rest : OperatorTree ω α → List (ω × α)
  | operand _ => []
  | node operator left right => left.rest ++ (operator, right.first) :: right.rest

theorem inorder_eq (tree : OperatorTree ω α) :
    tree.inorder = .inl tree.first :: spell tree.rest := by
  induction tree with
  | operand value => rfl
  | node operator left right ihleft ihright =>
    rw [inorder, ihleft, ihright, rest, spell, spell, spell, flatMap_append]
    rfl

theorem spell_injective : Function.Injective (spell : List (ω × α) → _) := by
  intro rest
  induction rest with
  | nil =>
    intro rest' h
    cases rest' with
    | nil => rfl
    | cons entry rest' => cases h
  | cons entry rest ih =>
    intro rest' h
    cases rest' with
    | nil => cases h
    | cons entry' rest' =>
      simp only [spell, flatMap_cons, cons_append, nil_append, List.cons.injEq, Sum.inr.injEq,
        Sum.inl.injEq] at h
      rw [Prod.ext h.1 h.2.1, ih h.2.2]

theorem first_and_rest_of_inorder {first : α} {rest : List (ω × α)}
    (h : tree.inorder = .inl first :: spell rest) : tree.first = first ∧ tree.rest = rest := by
  rw [inorder_eq] at h
  obtain ⟨hfirst, hrest⟩ := List.cons.inj h
  exact ⟨Sum.inl.inj hfirst, spell_injective hrest⟩

section Rebuild

variable (leaf : α → β) (combine : ω → β → β → β)
variable {tree : OperatorTree ω α} {operators : List ω}

/-- The operands that wait after the tree has been read: the last one, and
what stands before each operator of the right spine. -/
def waiting : OperatorTree ω α → List β
  | operand value => [leaf value]
  | node _ left right => right.waiting ++ [left.fold leaf combine]

theorem joinBefore_waiting
    (h : ∀ inner ∈ tree.rightSpine, (fixity inner).takesBefore (fixity next) = true)
    (operators : List ω) (operands : List β) :
    joinBefore fixity combine next (tree.rightSpine.reverse ++ operators)
        (tree.waiting leaf combine ++ operands) =
      joinBefore fixity combine next operators (tree.fold leaf combine :: operands) := by
  induction tree generalizing operators operands with
  | operand value => rfl
  | node operator left right _ ih =>
    obtain ⟨hoperator, hright⟩ := forall_mem_cons.mp h
    simp only [rightSpine, waiting, reverse_cons, append_assoc, singleton_append]
    rw [ih hright, joinBefore, if_pos hoperator]
    rfl

theorem joinAll_waiting (tree : OperatorTree ω α) (operators : List ω) (operands : List β) :
    joinAll combine (tree.rightSpine.reverse ++ operators) (tree.waiting leaf combine ++ operands) =
      joinAll combine operators (tree.fold leaf combine :: operands) := by
  induction tree generalizing operators operands with
  | operand value => rfl
  | node operator left right _ ih =>
    simp only [rightSpine, waiting, reverse_cons, append_assoc, singleton_append]
    rw [ih, joinAll]
    rfl

theorem joinBefore_of_head
    (h : ∀ outer ∈ operators.head?, (fixity outer).takesBefore (fixity next) = false)
    (operands : List β) :
    joinBefore fixity combine next operators operands = .ok (operators, operands) := by
  cases operators with
  | nil => rfl
  | cons outer operators => rw [joinBefore, h outer rfl, if_neg Bool.false_ne_true]

theorem groupFrom_tree (hgrouped : tree.Grouped fixity)
    (h : ∀ outer ∈ operators.head?, ∀ inner ∈ tree.leftSpine,
      (fixity outer).takesBefore (fixity inner) = false) (operands : List β) (more : List (ω × β)) :
    groupFrom fixity combine operators (leaf tree.first :: operands)
        (tree.rest.map (Prod.map id leaf) ++ more) =
      groupFrom fixity combine (tree.rightSpine.reverse ++ operators)
        (tree.waiting leaf combine ++ operands) more := by
  induction tree generalizing operators operands more with
  | operand value => rfl
  | node operator left right ihleft ihright =>
    obtain ⟨hleft, hright, hgroupedLeft, hgroupedRight⟩ := grouped_node.mp hgrouped
    have hfirst : ∀ outer ∈ operators.head?, ∀ inner ∈ left.leftSpine,
        (fixity outer).takesBefore (fixity inner) = false :=
      fun outer houter inner hinner => h outer houter inner (mem_cons_of_mem _ hinner)
    have hstay : ∀ outer ∈ operators.head?, (fixity outer).takesBefore (fixity operator) = false :=
      fun outer houter => h outer houter operator (mem_cons_self ..)
    have hnext : ∀ outer ∈ (operator :: operators).head?, ∀ inner ∈ right.leftSpine,
          (fixity outer).takesBefore (fixity inner) = false := by
      rintro _ ⟨⟩
      exact hright
    calc groupFrom fixity combine operators (leaf left.first :: operands)
          (((left.rest ++ (operator, right.first) :: right.rest).map (Prod.map id leaf)) ++ more)
        = groupFrom fixity combine (left.rightSpine.reverse ++ operators)
            (left.waiting leaf combine ++ operands)
            ((operator, leaf right.first) :: (right.rest.map (Prod.map id leaf) ++ more)) := by
          rw [map_append, append_assoc, ihleft hgroupedLeft hfirst]
          rfl
      _ = groupFrom fixity combine (operator :: operators)
            (leaf right.first :: left.fold leaf combine :: operands)
            (right.rest.map (Prod.map id leaf) ++ more) := by
          rw [groupFrom, joinBefore_waiting leaf combine hleft, joinBefore_of_head combine hstay]
          rfl
      _ = groupFrom fixity combine (right.rightSpine.reverse ++ operator :: operators)
            (right.waiting leaf combine ++ left.fold leaf combine :: operands)
            more := ihright hgroupedRight hnext _ _
      _ = _ := by simp [rightSpine, waiting]

theorem groupFrom_eq_fold (h : tree.Grouped fixity) :
    groupFrom fixity combine [] [leaf tree.first] (tree.rest.map (Prod.map id leaf)) =
      .ok (tree.fold leaf combine) := by
  have hnone : ∀ outer ∈ ([] : List ω).head?, ∀ inner ∈ tree.leftSpine,
      (fixity outer).takesBefore (fixity inner) = false := by simp
  have hread := groupFrom_tree leaf combine h hnone [] []
  have hjoin := joinAll_waiting leaf combine tree [] []
  rw [append_nil, append_nil, append_nil] at hread
  rw [append_nil, append_nil] at hjoin
  rw [hread, groupFrom, hjoin]
  rfl

end Rebuild

theorem fold_operand_node (tree : OperatorTree ω α) : tree.fold operand node = tree := by
  induction tree with
  | operand value => rfl
  | node operator left right ihleft ihright => rw [fold, ihleft, ihright]

theorem Grouped.eq_of_inorder {other : OperatorTree ω α} (h : tree.Grouped fixity)
    (hother : other.Grouped fixity) (hinorder : other.inorder = tree.inorder) : other = tree := by
  rw [tree.inorder_eq] at hinorder
  obtain ⟨hfirst, hrest⟩ := first_and_rest_of_inorder hinorder
  have hrebuilt := groupFrom_eq_fold operand node hother
  rw [hfirst, hrest, groupFrom_eq_fold operand node h, fold_operand_node,
    fold_operand_node] at hrebuilt
  exact (Except.ok.inj hrebuilt).symm

end OperatorTree

section Operators

variable {ω α : Type}
variable {operators : List ω} {operands : List α}

theorem alternate_cons {first : α} {others : List α} (h : others.length = operators.length) :
    alternate (first :: others) operators = .inl first :: spell (operators.zip others) := by
  induction operators generalizing first others with
  | nil =>
    rw [length_nil, length_eq_zero_iff] at h
    rw [h]
    rfl
  | cons operator operators ih =>
    cases others with
    | nil => cases h
    | cons other others =>
      rw [alternate, ih (Nat.succ.inj h)]
      rfl

theorem mem_of_mem_alternate {value : α} (h : .inl value ∈ alternate operands operators) :
    value ∈ operands := by
  fun_induction alternate operands operators with
  | case1 operand operands operator operators ih =>
    rcases mem_cons.mp h with hvalue | h
    · exact mem_cons.mpr (.inl (Sum.inl.inj hvalue))
    · rcases mem_cons.mp h with hoperator | h
      · cases hoperator
      · exact mem_cons.mpr (.inr (ih h))
  | case2 operands => simpa using h

theorem exists_groupOperators (h : operands.length = operators.length + 1) (fixity : ω → Fixity)
    (combine : ω → α → α → α) :
    ∃ tree : OperatorTree ω α, groupOperators fixity combine operands operators =
        .ok (tree.fold id combine) ∧
      tree.inorder = alternate operands operators ∧ tree.Grouped fixity := by
  obtain ⟨first, others, rfl⟩ := exists_cons_of_length_eq_add_one h
  have hothers : others.length = operators.length := Nat.succ.inj h
  obtain ⟨tree, hgrouped, hinorder⟩ :=
    OperatorTree.exists_grouped fixity first (operators.zip others)
  refine ⟨tree, ?_, hinorder.trans (alternate_cons hothers).symm, hgrouped⟩
  obtain ⟨hfirst, hrest⟩ := OperatorTree.first_and_rest_of_inorder hinorder
  have hrebuilt := OperatorTree.groupFrom_eq_fold id combine hgrouped
  rw [hfirst, hrest, Prod.map_id, map_id] at hrebuilt
  exact hrebuilt

/-- Operands with operators between them always group, in the one way that
precedence and associativity allow. -/
theorem groupOperators_isUnique (fixity : ω → Fixity) (combine : ω → α → α → α) {operands : List α}
    {operators : List ω} (h : operands.length = operators.length + 1) :
    ∃ tree : OperatorTree ω α, groupOperators fixity combine operands operators =
        .ok (tree.fold id combine) ∧
      tree.inorder = alternate operands operators ∧ tree.Grouped fixity ∧
      ∀ other : OperatorTree ω α, other.inorder = alternate operands operators →
          other.Grouped fixity → other = tree := by
  obtain ⟨tree, hgroup, hinorder, hgrouped⟩ := exists_groupOperators h fixity combine
  refine ⟨tree, hgroup, hinorder, hgrouped, fun other hother hgrouped' => ?_⟩
  exact hgrouped.eq_of_inorder hgrouped' (hother.trans hinorder.symm)

/-- Operators of one precedence that group to both sides. -/
theorem groupOperators_isUnique_mixed :
    [1, 2, 3, 4].length = [Fixity.right 5, .left 5, .right 5].length + 1 ∧
      groupOperators id (fun operator left right => .node operator left right)
          ([1, 2, 3, 4].map OperatorTree.operand)
          [Fixity.right 5, .left 5, .right 5] =
        .ok (.node (.left 5) (.node (.right 5) (.operand 1) (.operand 2))
          (.node (.right 5) (.operand 3) (.operand 4))) ∧
      ∀ other : OperatorTree Fixity Nat,
        other.inorder = alternate [1, 2, 3, 4] [.right 5, .left 5, .right 5] → other.Grouped id →
            other = .node (.left 5) (.node (.right 5) (.operand 1) (.operand 2))
              (.node (.right 5) (.operand 3) (.operand 4)) := by
  have hlength : [1, 2, 3, 4].length = [Fixity.right 5, .left 5, .right 5].length + 1 := by decide
  refine ⟨hlength, by decide, fun other hinorder hgrouped => ?_⟩
  obtain ⟨tree, -, -, -, honly⟩ := groupOperators_isUnique id (fun _ left _ => left) hlength
  rw [honly other hinorder hgrouped]
  exact (honly _ (by decide) (by decide)).symm

end Operators

end Sml
