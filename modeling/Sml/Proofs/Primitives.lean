import Sml.Evaluation.Primitive
import Sml.Proofs.Stamps

/-!
# What primitive functions do

A primitive function gives a value in which there are no cells and exceptions,
raises an exception, refuses its argument, prints, or looks into or writes to
the cell of the reference that it is given.
-/

namespace Sml.Primitive

open Eval

inductive Does (argument : Value) : Eval Value → Prop
  | gives {value : Value} : (∀ counters, value.Known counters) →
      Does argument (pure value)
  | raises (exn : BasicExn) : Does argument (raiseBasic exn)
  | refuses (self : Primitive) (part : Value) :
      Does argument (fault (.badArgument self part))
  | prints (text : String) : Does argument (print.apply (.string text))
  | loads {address : Nat} : argument = .reference address →
      Does argument (dereference.apply argument)
  | stores {address : Nat} {value : Value} :
      argument.asTuple? = some [.reference address, value] →
      Does argument (assign.apply argument)

variable {argument : Value}

theorem does_orOverflow (result : Option Int64) : Does argument (orOverflow result) := by
  unfold orOverflow
  split
  · exact .gives (by simp)
  · exact .raises _

theorem does_arithmetic (self : Primitive) (integers : Int64 → Int64 → Option Int64)
    (reals : Float → Float → Float) : Does argument (self.arithmetic argument integers reals) := by
  unfold arithmetic
  split
  · exact does_orOverflow _
  · exact .gives (by simp)
  · exact .refuses _ _

theorem does_integral (self : Primitive) {f : Int64 → Int64 → Eval Value}
    (hf : ∀ left right, Does argument (f left right)) :
    Does argument (self.integral argument f) := by
  unfold integral
  split
  · split
    · exact .raises _
    · exact hf _ _
  · exact .refuses _ _

theorem does_comparison (self : Primitive) (holds : Ordering → Bool) :
    Does argument (self.comparison argument holds) := by
  unfold comparison
  split
  · split
    · exact .gives (by simp)
    · exact .refuses _ _
  · exact .refuses _ _

theorem does_equality (self : Primitive) (holds : Bool → Bool) :
    Does argument (self.equality argument holds) := by
  unfold equality
  split
  · exact .gives (by simp)
  · exact .refuses _ _

theorem does_conversion (self : Primitive) (f : Float → Float) :
    Does argument (self.conversion argument f) := by
  unfold conversion
  split
  · exact does_orOverflow _
  · exact .refuses _ _

theorem does_implodeChars (values : List Value) (chars : List Char) :
    Does argument (implodeChars values chars) := by
  induction values generalizing chars with
  | nil => exact .gives (by simp)
  | cons value values ih =>
    cases value with
    | char value => exact ih _
    | _ => exact .refuses _ _

theorem does_apply (self : Primitive) (argument : Value) : Does argument (self.apply argument) := by
  cases self with
  | add | subtract | multiply => exact does_arithmetic _ _ _
  | div => exact does_integral _ fun _ _ => does_orOverflow _
  | mod => exact does_integral _ fun _ _ => .gives (by simp)
  | less | greater | lessEqual | greaterEqual => exact does_comparison _ _
  | equal | notEqual => exact does_equality _ _
  | floor | ceil | round | trunc => exact does_conversion _ _
  | assign =>
    by_cases hparts : ∃ address value, argument.asTuple? = some [.reference address, value]
    · obtain ⟨address, value, hparts⟩ := hparts
      exact .stores hparts
    · unfold apply
      simp only
      split
      · rename_i address value htuple
        exact (hparts ⟨address, value, htuple⟩).elim
      · exact .refuses _ _
  | dereference =>
    cases argument with
    | reference => exact .loads rfl
    | _ => exact .refuses _ _
  | divide | concat =>
    unfold apply
    simp only
    split
    · exact .gives (by simp)
    · exact .refuses _ _
  | negate | abs =>
    cases argument with
    | int => exact does_orOverflow _
    | real => exact .gives (by simp)
    | _ => exact .refuses _ _
  | size =>
    cases argument with
    | string => exact .gives (by simp)
    | _ => exact .refuses _ _
  | explode =>
    cases argument with
    | string value =>
      refine .gives fun _ => Value.known_list fun element helement => ?_
      obtain ⟨char, -, rfl⟩ := List.mem_map.mp helement
      exact Value.known_char char
    | _ => exact .refuses _ _
  | toReal | intToString =>
    cases argument with
    | int => exact .gives (by simp)
    | _ => exact .refuses _ _
  | ord | str =>
    cases argument with
    | char => exact .gives (by simp)
    | _ => exact .refuses _ _
  | realToString =>
    cases argument with
    | real => exact .gives (by simp)
    | _ => exact .refuses _ _
  | print =>
    cases argument with
    | string => exact .prints _
    | _ => exact .refuses _ _
  | chr =>
    cases argument with
    | int =>
      unfold apply
      simp only
      split
      · exact .gives (by simp)
      · exact .raises _
    | _ => exact .refuses _ _
  | implode =>
    unfold apply
    simp only
    split
    · exact does_implodeChars _ _
    · exact .refuses _ _

end Sml.Primitive
