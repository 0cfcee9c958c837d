import Sml.Reading.Cursor

/-!
# The failure that is kept

While a text is read the cursor goes on and back again, and failures are
recorded on the way.  The one that is kept sums up the whole history: it is
the first of those furthest into the input, and expects besides what the
others there expect.
-/

namespace Sml.Cursor

open List Cursor

variable {first more : List Expectation} {errors : List ReadError} {kept error : ReadError}

theorem mergeExpected_eq (first more : List Expectation) :
    mergeExpected first more = first ++ (more.removeAll first).eraseDups := by
  induction more generalizing first with
  | nil => simp [mergeExpected, removeAll]
  | cons expectation more ih =>
    rw [mergeExpected, ih, cons_removeAll]
    cases hcontains : first.contains expectation with
    | true => simp
    | false =>
      have hrest : more.removeAll (first ++ [expectation]) =
          (more.removeAll first).filter fun other => !other == expectation := by
        simp only [removeAll, filter_filter]
        refine filter_congr fun other _ => ?_
        by_cases heq : other = expectation <;> simp [heq]
      simp [hrest, eraseDups_cons]

theorem mergeExpected_append (first second more : List Expectation) :
    mergeExpected (first ++ (second.removeAll first).eraseDups) more =
      first ++ ((second ++ more).removeAll first).eraseDups := by
  have hmore : more.removeAll (first ++ (second.removeAll first).eraseDups) =
      (more.removeAll first).removeAll (second.removeAll first) := by
    simp only [removeAll, filter_filter]
    refine filter_congr fun other _ => ?_
    by_cases hfirst : other ∈ first <;> by_cases hsecond : other ∈ second <;>
      simp [hfirst, hsecond]
  rw [mergeExpected_eq, hmore, append_assoc, ← eraseDups_append]
  simp [removeAll]

inductive Action where
  | advance
  | moveTo (index : Nat)
  | record (error : ReadError)

def act (cursor : Cursor) : Action → Cursor
  | .advance => cursor.advance
  | .moveTo index => { cursor with index }
  | .record error => cursor.record error

def run (cursor : Cursor) (actions : List Action) : Cursor := actions.foldl act cursor

/-- The failures recorded on the way, each at the index the cursor had then. -/
def recorded : Cursor → List Action → List ReadError
  | _, [] => []
  | cursor, .record error :: actions =>
    { error with index := cursor.index } :: recorded (cursor.record error) actions
  | cursor, action :: actions => recorded (cursor.act action) actions

structure Summary (errors : List ReadError) (kept : ReadError) : Prop where
  greatest : ∀ error ∈ errors, error.index ≤ kept.index
  /-- It is the first of those at its index, and expects what that one does
  and then what is new in the later ones. -/
  merged : ∃ first later, errors.filter (·.index = kept.index) = first :: later ∧
    kept = { first with expected := first.expected ++
      ((later.flatMap ReadError.expected).removeAll first.expected).eraseDups }

def Keeps (errors : List ReadError) : Option ReadError → Prop
  | none => errors = []
  | some kept => Summary errors kept

theorem Summary.alone (h : ∀ earlier ∈ errors, earlier.index < error.index) :
    Summary (errors ++ [error]) error where
  greatest := forall_mem_append.mpr
    ⟨fun earlier hearlier => Nat.le_of_lt (h earlier hearlier),
      forall_mem_singleton.mpr Nat.le.refl⟩
  merged := by
    have hnone : errors.filter (·.index = error.index) = [] := by
      simpa using fun earlier hearlier => Nat.ne_of_lt (h earlier hearlier)
    exact ⟨error, [], by simp [hnone], by simp [removeAll]⟩

theorem Summary.behind (h : Summary errors kept) (hindex : error.index < kept.index) :
    Summary (errors ++ [error]) kept where
  greatest := forall_mem_append.mpr
    ⟨h.greatest, forall_mem_singleton.mpr (Nat.le_of_lt hindex)⟩
  merged := by simpa [filter_append, Nat.ne_of_lt hindex] using h.merged

theorem Summary.beside (h : Summary errors kept) (hindex : error.index = kept.index) :
    Summary (errors ++ [error])
      { kept with expected := mergeExpected kept.expected error.expected } where
  greatest := forall_mem_append.mpr ⟨h.greatest, forall_mem_singleton.mpr (Nat.le_of_eq hindex)⟩
  merged := by
    obtain ⟨first, later, hfilter, hkept⟩ := h.merged
    refine ⟨first, later ++ [error], by simp [hindex, hfilter], ?_⟩
    rw [flatMap_append, flatMap_singleton, ← mergeExpected_append]
    rw [hkept]

theorem Keeps.record {cursor : Cursor} (h : Keeps errors cursor.furthest) (error : ReadError) :
    Keeps (errors ++ [{ error with index := cursor.index }]) (cursor.record error).furthest := by
  rw [Cursor.record]
  cases hfurthest : cursor.furthest with
  | none =>
    rw [hfurthest] at h
    cases h
    exact Summary.alone (by simp)
  | some kept =>
    rw [hfurthest] at h
    simp only
    split
    · rw [hfurthest]
      exact h.behind ‹_›
    · rename_i hahead
      split
      · rename_i hsame
        exact h.beside hsame.symm
      · rename_i hne
        refine .alone fun earlier hearlier => Nat.lt_of_le_of_lt (h.greatest earlier hearlier) ?_
        exact Nat.lt_of_le_of_ne (Nat.not_lt.mp hahead) hne

theorem Keeps.run {cursor : Cursor} (h : Keeps errors cursor.furthest) (actions : List Action) :
    Keeps (errors ++ cursor.recorded actions) (cursor.run actions).furthest := by
  induction actions generalizing cursor errors with
  | nil => simpa [recorded, run] using h
  | cons action actions ih =>
    cases action with
    | advance =>
      have hadvance : cursor.advance.furthest = cursor.furthest := by
        rw [advance]
        split <;> rfl
      rw [← hadvance] at h
      simpa [recorded, run, act] using ih h
    | moveTo index =>
      have hmoved : Keeps errors (furthest { cursor with index }) := h
      simpa [recorded, run, act] using ih hmoved
    | record error => simpa [recorded, run, act] using ih (h.record error)

/-- Whatever is done to a cursor, what it keeps sums up what was recorded. -/
theorem keeps_furthest (tokens : Array Token) (index : Nat) (operators : OperatorTable)
    (actions : List Action) :
    Keeps (recorded { tokens, index, operators } actions)
      (run { tokens, index, operators } actions).furthest := by
  have hstart : Keeps [] (furthest { tokens, index, operators }) := rfl
  exact hstart.run actions

end Sml.Cursor
