import Sml.Evaluation.Eval
import Sml.Proofs.TupleFields

/-!
# Tuples by their labels

The labels of a tuple are in the order of their texts, where `10` comes before
`2`.  The elements are found in their own order all the same, and in nothing
but a tuple.
-/

namespace Sml

open List Table

open Ty (numbered tupleElements?)

variable {α : Type} {elements : List α} {fields : Table α}

def Table.LabelledTo (count : Nat) (fields : Table α) : Prop :=
  ∀ label, label ∈ keys fields ↔ ∃ position, (1 ≤ position ∧ position ≤ count) ∧
    toString position = label

theorem labelledTo_ofList (elements : List α) :
    LabelledTo elements.length (ofList (numbered 1 elements)) := by
  intro label
  rw [Table.keys, ((perm_numbered elements).map (·.1)).mem_iff, Ty.numbered_labels, mem_map]
  simp only [mem_range'_1, Nat.add_comm 1, Nat.lt_succ_iff]

theorem mem_numbered {first index : Nat} {element : α} (h : elements[index]? = some element) :
    (toString (first + index), element) ∈ numbered first elements := by
  induction elements generalizing first index with
  | nil => cases h
  | cons other elements ih =>
    cases index with
    | zero =>
      cases h
      exact mem_cons_self
    | succ index =>
      rw [getElem?_cons_succ] at h
      have hrest : (toString (first + 1 + index), element) ∈ numbered (first + 1) elements := ih h
      rw [Nat.add_right_comm] at hrest
      exact mem_cons_of_mem _ hrest

theorem Ty.tupleElements?_simplify {types : List Ty} (h : 2 ≤ types.length) :
    tupleElements? (mapValues simplify (tupleFields types)) true = some (types.map simplify) := by
  rw [← tupleFields_map]
  exact (tupleElements?_eq_some (ordered_tupleFields _)).mpr ⟨by rwa [length_map], rfl⟩

/-- Values are made into tuples and found in them again, each by its label;
records that are no tuples give none, and types do as values do. -/
theorem tuples_by_labels :
    (∀ values : List Value, (Value.tuple values).asTuple? = some values ∧
      ∀ index value, values[index]? = some value → ∀ steps tree,
        applyValue (steps + 1) (.selector (toString (index + 1))) (.tuple values) tree =
          .ok value tree) ∧
    (∀ fields : Table Value, Ordered fields → ((Value.record fields).asTuple?.isSome = true ↔
      ∃ values, Value.record fields = .tuple values)) ∧
    (∀ types : List Ty, 2 ≤ types.length → ∃ fields,
      (Ty.tuple types).simplify = .record fields true ∧
        tupleElements? fields true = some (types.map Ty.simplify)) ∧
    ∀ fields : Table Ty, Ordered fields → (∀ count, ¬ fields.LabelledTo count) →
      tupleElements? fields true = none := by
  refine ⟨fun values => ⟨Value.asTuple?_tuple values, ?_⟩, ?_, ?_, ?_⟩
  · intro index value hvalue steps tree
    have hget := get?_ofList_of_nodup (Ty.nodup_numbered values 1) (mem_numbered hvalue)
    rw [Nat.add_comm] at hget
    rw [Value.tuple, applyValue, hget]
    rfl
  · intro fields hordered
    rw [Option.isSome_iff_exists]
    exact exists_congr fun values => (mapM_range_eq_some hordered).trans (by simp [Value.tuple])
  · exact fun types htypes => ⟨_, Ty.simplify_tuple types, Ty.tupleElements?_simplify htypes⟩
  · intro fields hordered hlabels
    rw [Option.eq_none_iff_forall_ne_some]
    intro elements helements
    have hfields := ((Ty.tupleElements?_eq_some hordered).mp helements).2
    rw [hfields] at hlabels
    exact hlabels _ (labelledTo_ofList elements)

/-- Eleven elements, of which the tenth and the eleventh are kept before the
second. -/
theorem tuples_by_labels_eleven :
    keys (ofList (numbered 1 (List.range 11))) =
        ["1", "10", "11", "2", "3", "4", "5", "6", "7", "8", "9"] ∧
      (Value.tuple ((List.range 11).map fun number => .char (.ofNat (97 + number)))).asTuple? =
        some ((List.range 11).map fun number => .char (.ofNat (97 + number))) ∧
      ∀ steps tree, applyValue (steps + 1) (.selector (toString 10))
        (.tuple ((List.range 11).map fun number => .char (.ofNat (97 + number)))) tree =
          .ok (.char 'j') tree := by
  have h := tuples_by_labels.1 ((List.range 11).map fun number => .char (.ofNat (97 + number)))
  exact ⟨by decide +kernel, h.1, h.2 9 (.char 'j') rfl⟩

end Sml
