import Mathlib.Logic.Relation
import Sml.Dynamic.ValueText
import Sml.Proofs.Rendering
import Sml.Proofs.Stamps
import Sml.Proofs.TupleFields

/-!
# Values that have a text

A reference is written with what its cell holds.  Where no cell leads back to
itself, the cells on a way are all different, so the way comes to its end
before all cells are used up.
-/

namespace Sml.Value

open List Relation

variable {cell : Nat → Bool → Option String} {memory : Array Value}

theorem isSome_commas (texts : List (Option String)) :
    (commas texts).isSome = texts.all Option.isSome := by
  rw [commas, Option.isSome_map, Bool.eq_iff_iff, isSome_mapM, all_eq_true]
  rfl

theorem isSome_braced (texts : List (String × Option String)) :
    (writeWith.braced texts).isSome = texts.all (·.2.isSome) := by
  simp [writeWith.braced, isSome_commas, Function.comp_def]

/-- The cells of these stamps have a text. -/
def Writes (cell : Nat → Bool → Option String) (stamps : List Stamp) : Prop :=
  ∀ address, .cell address ∈ stamps → ∀ nested, (cell address nested).isSome = true

theorem writes_append {first second : List Stamp} :
    Writes cell (first ++ second) ↔ Writes cell first ∧ Writes cell second := by
  simp only [Writes, mem_append, or_imp, forall_and]

mutual

theorem isSome_writeWith (value : Value) (h : Writes cell value.stamps) (nested : Bool) :
    (writeWith cell value nested).isSome = true := by
  cases value with
  | record fields =>
    have hfields := isSome_writeFields fields h
    rw [writeWith]
    split
    · rfl
    · split
      · rename_i elements helements
        split
        · rw [Option.isSome_map, isSome_commas, all_eq_true]
          intro text htext
          rw [mapM_range, mapM_get?_eq_some] at helements
          obtain ⟨entry, hentry, rfl⟩ := exists_mem_numbered 1 htext
          exact all_eq_true.mp hfields _ (Table.mem_of_get? (helements.2 entry hentry))
        · rwa [isSome_braced]
      · rwa [isSome_braced]
  | constructed name argument =>
    cases argument with
    | none => rfl
    | some argument =>
      rw [writeWith]
      split
      · rename_i elements helements
        split at helements
        · have hcons := isSome_writeCons argument h
          rw [helements] at hcons
          rwa [Option.isSome_map, isSome_commas]
        · cases helements
      · rw [applied, Option.isSome_map]
        exact isSome_writeWith argument h true
  | exn name id argument =>
    cases argument with
    | none => rfl
    | some argument =>
      rw [writeWith, applied, Option.isSome_map]
      exact isSome_writeWith argument (fun address haddress => h address (.tail _ haddress)) true
  | reference address => exact h address (by simp [stamps]) nested
  | _ => rfl

theorem isSome_writeFields (fields : List (String × Value))
    (h : Writes cell (stampsOfFields fields)) :
    (writeFields cell fields).all (·.2.isSome) = true := by
  cases fields with
  | nil => rfl
  | cons field fields =>
    obtain ⟨hvalue, hrest⟩ := writes_append.mp h
    rw [writeFields, all_cons, isSome_writeWith field.2 hvalue, isSome_writeFields fields hrest]
    rfl

theorem isSome_writeList (value : Value) (h : Writes cell value.stamps) :
    (writeList cell value).all (·.all Option.isSome) = true := by
  cases value with
  | constructed name argument =>
    cases argument with
    | none =>
      rw [writeList]
      split <;> rfl
    | some argument =>
      rw [writeList]
      split
      · exact isSome_writeCons argument h
      · rfl
  | _ => rfl

theorem isSome_writeCons (value : Value) (h : Writes cell value.stamps) :
    (writeCons cell value).all (·.all Option.isSome) = true := by
  cases value with
  | record fields =>
    have hhead := isSome_writeHead fields h
    have htail := isSome_writeTail fields h
    rw [writeCons]
    split
    · cases hfirst : writeHead cell fields <;> simp_all
    · rfl
  | _ => rfl

theorem isSome_writeHead (fields : List (String × Value))
    (h : Writes cell (stampsOfFields fields)) :
    (writeHead cell fields).all Option.isSome = true := by
  cases fields with
  | nil => rfl
  | cons field fields =>
    obtain ⟨hvalue, hrest⟩ := writes_append.mp h
    rw [writeHead]
    split
    · exact isSome_writeWith field.2 hvalue _
    · exact isSome_writeHead fields hrest

theorem isSome_writeTail (fields : List (String × Value))
    (h : Writes cell (stampsOfFields fields)) :
    (writeTail cell fields).all (·.all Option.isSome) = true := by
  cases fields with
  | nil => rfl
  | cons field fields =>
    obtain ⟨hvalue, hrest⟩ := writes_append.mp h
    rw [writeTail]
    split
    · exact isSome_writeList field.2 hvalue
    · exact isSome_writeTail fields hrest

end

/-- What the first cell holds mentions the second. -/
def Holds (memory : Array Value) (first second : Nat) : Prop :=
  ∃ value, memory[first]? = some value ∧ .cell second ∈ value.stamps

/-- No cell that the value leads to leads back to itself. -/
def LeadsStraight (memory : Array Value) (value : Value) : Prop :=
  ∀ first, .cell first ∈ value.stamps → ∀ last, ReflTransGen (Holds memory) first last →
    ¬ TransGen (Holds memory) last last

-- The cells that were passed are all different, and each leads to the cells of the value.
theorem isSome_textTo {value : Value} (h : value.LeadsStraight memory) {cells : Nat}
    {seen : List Nat} (hnodup : seen.Nodup) (hseen : ∀ first ∈ seen, first < memory.size ∧
      ∀ address, .cell address ∈ value.stamps → TransGen (Holds memory) first address)
    (hcells : memory.size < cells + seen.length) (nested : Bool) :
    (textTo memory cells value nested).isSome = true := by
  induction cells generalizing value seen nested with
  | zero =>
    have hsubset : seen ⊆ List.range memory.size :=
      fun first hfirst => mem_range.mpr (hseen first hfirst).1
    have hlength := (hnodup.subperm hsubset).length_le
    rw [length_range] at hlength
    omega
  | succ cells ih =>
    refine isSome_writeWith value (fun address haddress nested => ?_) nested
    cases htarget : memory[address]? with
    | none => rfl
    | some target =>
      have hnew : address ∉ seen := fun hmem =>
        h address haddress address .refl ((hseen address hmem).2 address haddress)
      have hstep : ∀ {other}, .cell other ∈ target.stamps → Holds memory address other :=
        fun hother => ⟨target, htarget, hother⟩
      simp only [applied, Option.isSome_map]
      refine ih (fun first hfirst last hpath => h address haddress last (hpath.head (hstep hfirst)))
        (nodup_cons.mpr ⟨hnew, hnodup⟩) (forall_mem_cons.mpr ⟨⟨?_, fun other hother => ?_⟩, ?_⟩)
        (by rw [length_cons]; omega) true
      · exact (Array.getElem?_eq_some_iff.mp htarget).1
      · exact .single (hstep hother)
      · intro first hfirst
        exact ⟨(hseen first hfirst).1, fun other hother =>
          ((hseen first hfirst).2 address haddress).tail (hstep hother)⟩

/-- A value has a text if no cell that it leads to leads back to itself. -/
theorem exists_text (memory : Array Value) (value : Value) (h : value.LeadsStraight memory) :
    ∃ text, value.text? memory = some text :=
  Option.isSome_iff_exists.mp (isSome_textTo h .nil nofun (by simp) false)

/-- A cell that holds another, which holds no cell. -/
theorem exists_text_chain : ∃ text, (reference 0).text? #[.constructed "R" (some (.reference 1)),
    .constructed "N" none] = some text := by
  refine exists_text _ _ fun _ _ last _ hring => lt_irrefl last ?_
  refine transGen_minimal (fun first second hholds => ?_) last last hring
  obtain ⟨value, hvalue, hmem⟩ := hholds
  obtain ⟨hless, rfl⟩ := Array.getElem?_eq_some_iff.mp hvalue
  change first < 2 at hless
  interval_cases first <;> simp_all [stamps, stampsOfOption]

/-- A cell that holds itself. -/
theorem text?_ring : (reference 0).text? #[.constructed "R" (some (.reference 0))] = none := by
  decide

end Sml.Value
