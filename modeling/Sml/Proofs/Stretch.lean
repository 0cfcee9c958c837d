import Mathlib.Order.BooleanAlgebra.Defs
import Mathlib.Order.Nat
import Sml.Proofs.Advance
import Sml.Reading.Phrases

/-!
# Reading along the tokens

Readers are compared in pairs: where both begin in a stretch of tokens, they
do the same.  What they do is told at the same time.  The tokens stay, the
index never falls and never passes the end, and a failure has been recorded
where reading stopped.  Of what a reader gives it is told whether a token has
been read for it, what is known of it, and which operators are in force then.

Once a token has been read, only what happens further on matters.  So two
readers that call others only after their first token do the same if those
others do the same from the next token on.
-/

namespace Sml

open Reader

structure Stretch where
  tokens : Array Token
  start : Nat
  inside : Bool := false

def Stretch.next (stretch : Stretch) : Stretch := ⟨stretch.tokens, stretch.start + 1, true⟩

variable {operators : OperatorTable}
variable {error : ReadError}

namespace Cursor

/-- The cursor stands in the stretch, and these operators are in force. -/
structure In (cursor : Cursor) (stretch : Stretch) (operators : OperatorTable) : Prop where
  tokens : cursor.tokens = stretch.tokens
  start : stretch.start ≤ cursor.index
  inside : stretch.inside = true → cursor.index ≤ stretch.tokens.size
  operators : cursor.operators = operators

/-- The tokens stay, and the index neither falls nor passes the end. -/
structure Onward (before after : Cursor) : Prop where
  tokens : after.tokens = before.tokens
  index : before.index ≤ after.index
  inside : after.index ≤ max before.index before.tokens.size

/-- The failure has been recorded where reading stopped or further on.  A list
of types that is applied to nothing is not recorded, but tells its place. -/
structure Stopped (cursor : Cursor) (error : ReadError) : Prop where
  fault : error.fault ≠ .nesting
  recorded : (∃ furthest ∈ cursor.furthest, cursor.index ≤ furthest.index) ∨
    error.fault = .typeSequence ∧ error.index = cursor.index

variable {cursor before middle after : Cursor}

theorem Onward.refl (cursor : Cursor) : cursor.Onward cursor := ⟨rfl, le_rfl, le_max_left _ _⟩

theorem Onward.trans (hfirst : before.Onward middle)
    (hsecond : middle.Onward after) : before.Onward after := by
  have hinside := hsecond.inside
  rw [hfirst.tokens] at hinside
  refine ⟨hsecond.tokens.trans hfirst.tokens, hfirst.index.trans hsecond.index, hinside.trans ?_⟩
  exact max_le hfirst.inside (le_max_right _ _)

variable {stretch : Stretch}

theorem Onward.stays (h : before.Onward after) (hbefore : before.In stretch operators) :
    after.In stretch after.operators := by
  refine ⟨h.tokens.trans hbefore.tokens, hbefore.start.trans h.index,
    fun hinside => h.inside.trans ?_, rfl⟩
  rw [hbefore.tokens]
  exact max_le (hbefore.inside hinside) le_rfl

theorem Onward.next (h : before.Onward after) (hbefore : before.In stretch operators)
    (hread : before.index < after.index) : after.In stretch.next after.operators := by
  refine ⟨h.tokens.trans hbefore.tokens,
    Nat.succ_le_of_lt (hbefore.start.trans_lt hread), fun _ => ?_, rfl⟩
  have hinside := h.inside
  rw [hbefore.tokens] at hinside
  change after.index ≤ stretch.tokens.size
  omega

theorem In.of_next (h : cursor.In stretch.next operators) : cursor.In stretch operators :=
  ⟨h.tokens, (Nat.le_succ _).trans h.start, fun _ => h.inside rfl, h.operators⟩

theorem onward_record (cursor : Cursor) (error : ReadError) : cursor.Onward (cursor.record error) ∧
      (cursor.record error).operators = cursor.operators := by
  have hsame : ∀ furthest, cursor.Onward { cursor with furthest } :=
    fun _ => ⟨rfl, le_rfl, le_max_left _ _⟩
  unfold record
  split
  · exact ⟨hsame _, rfl⟩
  · simp only
    split
    · exact ⟨.refl _, rfl⟩
    · split
      · exact ⟨hsame _, rfl⟩
      · exact ⟨hsame _, rfl⟩

theorem stopped_record (cursor : Cursor) (h : error.fault ≠ .nesting) :
    (cursor.record error).Stopped error := by
  refine ⟨h, .inl ?_⟩
  unfold record
  split
  · exact ⟨_, rfl, le_rfl⟩
  · rename_i furthest hfurthest
    simp only
    split
    · exact ⟨furthest, hfurthest, Nat.le_of_lt ‹_›⟩
    · split
      · exact ⟨_, rfl, ge_of_eq ‹_›⟩
      · exact ⟨_, rfl, le_rfl⟩

theorem onward_advance (cursor : Cursor) : cursor.Onward cursor.advance ∧
      cursor.advance.operators = cursor.operators := by
  unfold advance
  split
  · rename_i hindex
    exact ⟨⟨rfl, Nat.le_succ _, (Nat.succ_le_of_lt hindex).trans (le_max_right _ _)⟩, rfl⟩
  · exact ⟨.refl _, rfl⟩

theorem index_lt_advance {token : Token} (h : cursor.peek? = some token) :
    cursor.index < cursor.advance.index := by
  obtain ⟨hindex, -⟩ := Array.getElem?_eq_some_iff.mp h
  rw [advance, if_pos hindex]
  exact Nat.lt_succ_self _

end Cursor

variable {condition : Prop}

namespace Reader

variable {α β : Type}
variable {value start : α}

/-- What a run from a cursor comes to: for which values a token has been read,
what is known of a value with the operators then in force, and what is known of
the operators after a failure. -/
def Comes (cursor : Cursor) (kept : OperatorTable → Prop) (reads : α → Prop)
    (told : α → OperatorTable → Prop) :
    EStateM.Result ReadError Cursor α → Prop
  | .ok value after =>
    cursor.Onward after ∧ (reads value → cursor.index < after.index) ∧ told value after.operators
  | .error error after =>
    cursor.Onward after ∧ after.Stopped error ∧ kept after.operators

/-- In a stretch, and from these operators on, two readers do the same. -/
def Runs (stretch : Stretch) (before : OperatorTable) (kept : OperatorTable → Prop)
    (reads : α → Prop) (told : α → OperatorTable → Prop) (first second : Reader α) : Prop :=
  ∀ cursor : Cursor, cursor.In stretch before →
    second cursor = first cursor ∧ Comes cursor kept reads told (first cursor)

/-- Two readers that leave the operators as they are, also where they fail. -/
def Gives (stretch : Stretch) (reads : α → Prop) (Q : α → Prop) (first second : Reader α) : Prop :=
  ∀ before, Runs stretch before (· = before) reads
    (fun value after => Q value ∧ after = before) first second

abbrev Agree (stretch : Stretch) (reads : α → Prop) (first second : Reader α) :
    Prop :=
  Gives stretch reads (fun _ => True) first second

abbrev Moves (stretch : Stretch) (reads : α → Prop) (reader : Reader α) : Prop :=
  Agree stretch reads reader reader

abbrev Reads (stretch : Stretch) (before : OperatorTable) (reads : α → Prop)
    (told : α → OperatorTable → Prop) (first second : Reader α) : Prop :=
  Runs stretch before (fun _ => True) reads told first second

namespace Comes

variable {cursor middle : Cursor} {kept : OperatorTable → Prop} {reads reads' : α → Prop}
  {told told' : α → OperatorTable → Prop} {result : EStateM.Result ReadError Cursor α}

theorem mono (h : Comes cursor kept reads told result)
    (hreads : ∀ value, reads' value → reads value)
    (htold : ∀ value after, told value after → told' value after) :
    Comes cursor kept reads' told' result := by
  cases result with
  | ok value after => exact ⟨h.1, fun hvalue => h.2.1 (hreads value hvalue), htold _ _ h.2.2⟩
  | error error after => exact h

theorem after (h : Comes middle kept reads told result)
    (hmiddle : cursor.Onward middle) : Comes cursor kept reads told result := by
  cases result with
  | ok value after =>
    exact ⟨hmiddle.trans h.1, fun hvalue => hmiddle.index.trans_lt (h.2.1 hvalue), h.2.2⟩
  | error error after => exact ⟨hmiddle.trans h.1, h.2⟩

theorem after_read (h : Comes middle kept reads told result) (hmiddle : cursor.Onward middle)
    (hread : cursor.index < middle.index) : Comes cursor kept reads' told result := by
  cases result with
  | ok value after => exact ⟨hmiddle.trans h.1, fun _ => hread.trans_le h.1.index, h.2.2⟩
  | error error after => exact ⟨hmiddle.trans h.1, h.2⟩

end Comes

namespace Runs

variable {stretch : Stretch} {before : OperatorTable} {kept : OperatorTable → Prop}
  {reads reads' : α → Prop} {reads₂ : β → Prop} {told told' : α → OperatorTable → Prop}
  {told₂ : β → OperatorTable → Prop} {reader reader' : Reader α} {next next' : α → Reader β}
variable {step step' : α → Reader (Option α)}

theorem pure (h : told value before) : Runs stretch before kept ⊥ told (pure value) (pure value) :=
  fun _ hcursor => ⟨rfl, .refl _, False.elim, hcursor.operators ▸ h⟩

theorem nothing {told : Option α → OperatorTable → Prop} (h : told none before) :
    Runs stretch before kept (·.isSome = true) told (Pure.pure none) (Pure.pure none) :=
  fun _ hcursor => ⟨rfl, .refl _, nofun, hcursor.operators ▸ h⟩

theorem fail (hfault : error.fault ≠ .nesting) (h : kept before) :
    Runs stretch before kept reads told (fail error) (fail error) := by
  intro cursor hcursor
  obtain ⟨honward, hoperators⟩ := cursor.onward_record error
  refine ⟨rfl, honward, cursor.stopped_record hfault, ?_⟩
  rw [hoperators, hcursor.operators]
  exact h

section

variable (h : Runs stretch before kept reads told reader reader')
include h

theorem mono (hreads : ∀ value, reads' value → reads value)
    (htold : ∀ value after, told value after → told' value after) :
    Runs stretch before kept reads' told' reader reader' :=
  fun cursor hcursor => ⟨(h cursor hcursor).1, (h cursor hcursor).2.mono hreads htold⟩

theorem ite [Decidable condition] {other other' : Reader α}
    (hother : Runs stretch before kept reads told other other') :
    Runs stretch before kept reads told (if condition then reader else other)
      (if condition then reader' else other') := by
  split
  · exact h
  · exact hother

theorem cases (hsame : ∀ value after, told value after → ¬ reads value →
      Runs stretch after kept reads₂ told₂ (next value) (next' value))
    (hread : ∀ value after, told value after → reads value →
      Runs stretch.next after kept ⊥ told₂ (next value) (next' value)) :
    Runs stretch before kept reads₂ told₂ (reader >>= next) (reader' >>= next') := by
  intro cursor hcursor
  obtain ⟨hsecond, hcomes⟩ := h cursor hcursor
  change EStateM.bind reader' next' cursor = EStateM.bind reader next cursor ∧
    Comes cursor kept reads₂ told₂ (EStateM.bind reader next cursor)
  unfold EStateM.bind
  rw [hsecond]
  cases hresult : reader cursor with
  | error error after =>
    rw [hresult] at hcomes
    exact ⟨rfl, hcomes⟩
  | ok value after =>
    rw [hresult] at hcomes
    obtain ⟨honward, hmoved, htold⟩ := hcomes
    by_cases hvalue : reads value
    · obtain ⟨hnext, hcomes⟩ := hread value _ htold hvalue after
        (honward.next hcursor (hmoved hvalue))
      exact ⟨hnext, hcomes.after_read honward (hmoved hvalue)⟩
    · obtain ⟨hnext, hcomes⟩ := hsame value _ htold hvalue after (honward.stays hcursor)
      exact ⟨hnext, hcomes.after honward⟩

theorem of_next : Runs stretch.next before kept reads told reader reader' :=
  fun cursor hcursor => h cursor hcursor.of_next

theorem bind (hnext : ∀ value after, told value after →
      Runs stretch after kept reads₂ told₂ (next value) (next' value)) :
    Runs stretch before kept reads₂ told₂ (reader >>= next) (reader' >>= next') :=
  h.cases (fun value after htold _ => hnext value after htold)
    fun value after htold _ => (hnext value after htold).of_next.mono
      (fun _ => False.elim) fun _ _ => id

end

theorem first (h : Runs stretch before kept ⊤ told reader reader')
    (hnext : ∀ value after, told value after →
      Runs stretch.next after kept ⊥ told₂ (next value) (next' value)) :
    Runs stretch before kept reads₂ told₂ (reader >>= next) (reader' >>= next') :=
  h.cases (fun _ _ _ hreads => absurd trivial hreads)
    fun value after htold _ => hnext value after htold

theorem lead (h : Runs stretch before kept ⊤ told reader reader')
    (hnext : ∀ value after, told value after →
      Runs stretch after kept ⊥ told₂ (next value) (next' value)) :
    Runs stretch before kept reads₂ told₂ (reader >>= next) (reader' >>= next') :=
  h.first fun value after htold => (hnext value after htold).of_next

theorem of_gives {Q : α → Prop} (h : Gives stretch reads Q reader reader') :
    Reads stretch before reads (fun value after => Q value ∧ after = before) reader reader' := by
  intro cursor hcursor
  obtain ⟨hsame, hcomes⟩ := h before cursor hcursor
  refine ⟨hsame, ?_⟩
  cases hresult : reader cursor with
  | ok value after =>
    rw [hresult] at hcomes
    exact hcomes
  | error error after =>
    rw [hresult] at hcomes
    exact ⟨hcomes.1, hcomes.2.1, trivial⟩

/-! ## Repeating -/

/-- A loop goes on as long as each round reads a token, so its bound is never
reached. -/
theorem iterate (h : ∀ value before, told value before →
      Runs stretch before kept (·.isSome = true) (fun next? after =>
          match next? with
          | some next => told next after
          | none => told value after) (step value) (step' value)) (bound : Nat) {cursor : Cursor}
    (hvalue : told value before) (hcursor : cursor.In stretch before)
    (hbound : cursor.remaining < bound) :
    iterate step' bound value cursor = iterate step bound value cursor ∧
      Comes cursor kept ⊥ told (iterate step bound value cursor) := by
  induction bound generalizing value cursor before with
  | zero => exact absurd hbound (Nat.not_lt_zero _)
  | succ bound ih =>
    obtain ⟨hsame, hcomes⟩ := h value before hvalue cursor hcursor
    change EStateM.bind (step' value) _ cursor = EStateM.bind (step value) _ cursor ∧
      Comes cursor kept ⊥ told (EStateM.bind (step value) _ cursor)
    unfold EStateM.bind
    rw [hsame]
    cases hresult : step value cursor with
    | error error after =>
      rw [hresult] at hcomes
      exact ⟨rfl, hcomes⟩
    | ok next? after =>
      rw [hresult] at hcomes
      obtain ⟨honward, hmoved, htold⟩ := hcomes
      cases next? with
      | none => exact ⟨rfl, honward, False.elim, htold⟩
      | some next =>
        have hindex := hmoved rfl
        have hless : after.remaining < bound := by
          have hinside := honward.inside
          unfold Cursor.remaining at hbound ⊢
          rw [honward.tokens]
          omega
        obtain ⟨hrest, hcomes⟩ := ih htold (honward.stays hcursor) hless
        exact ⟨hrest, hcomes.after honward⟩

theorem whileSome
    (h : ∀ value before, told value before → Runs stretch before kept (·.isSome = true)
        (fun next? after =>
          match next? with
          | some next => told next after
          | none => told value after) (step value) (step' value)) (hstart : told start before) :
    Runs stretch before kept ⊥ told (whileSome start step) (whileSome start step') :=
  fun cursor hcursor => iterate h (cursor.remaining + 1) hstart hcursor (Nat.lt_succ_self _)

end Runs

namespace Gives

variable {stretch : Stretch} {reads reads' : α → Prop} {reads₂ : β → Prop} {Q : α → Prop}
  {R : β → Prop} {reader reader' : Reader α} {next next' : α → Reader β}
variable {other other' : Reader α}

theorem pure (h : Q value) : Gives stretch ⊥ Q (pure value) (pure value) :=
  fun _ => .pure ⟨h, rfl⟩

theorem nothing {Q : Option α → Prop} (h : Q none) :
    Gives stretch (·.isSome = true) Q (Pure.pure none) (Pure.pure none) :=
  fun _ => .nothing ⟨h, rfl⟩

theorem fail (h : error.fault ≠ .nesting) :
    Gives stretch reads Q (fail error) (fail error) :=
  fun _ => .fail h rfl

section

variable (h : Gives stretch reads Q reader reader')
include h

theorem mono {Q' : α → Prop} (hreads : ∀ value, reads' value → reads value)
    (hQ : ∀ value, Q value → Q' value) : Gives stretch reads' Q' reader reader' :=
  fun before => (h before).mono hreads fun _ _ htold => ⟨hQ _ htold.1, htold.2⟩

theorem agree : Agree stretch reads reader reader' :=
  h.mono (fun _ => id) fun _ _ => trivial

theorem maybe : Gives stretch ⊥ Q reader reader' :=
  h.mono (fun _ => False.elim) fun _ => id

theorem of_next : Gives stretch.next reads Q reader reader' :=
  fun before => (h before).of_next

theorem ite [Decidable condition] (hother : Gives stretch reads Q other other') :
    Gives stretch reads Q (if condition then reader else other)
      (if condition then reader' else other') :=
  fun before => .ite (h before) (hother before)

theorem cases
    (hsame : ∀ value, Q value → ¬ reads value → Gives stretch reads₂ R (next value) (next' value))
    (hread : ∀ value, Q value → reads value → Gives stretch.next ⊥ R (next value) (next' value)) :
    Gives stretch reads₂ R (reader >>= next) (reader' >>= next') := by
  intro before
  refine (h before).cases ?_ ?_
  · rintro value _ ⟨hvalue, rfl⟩ hreads
    exact hsame value hvalue hreads _
  · rintro value _ ⟨hvalue, rfl⟩ hreads
    exact hread value hvalue hreads _

theorem bind (hnext : ∀ value, Q value → Gives stretch reads₂ R (next value) (next' value)) :
    Gives stretch reads₂ R (reader >>= next) (reader' >>= next') :=
  h.cases (fun value hvalue _ => hnext value hvalue)
    fun value hvalue _ => (hnext value hvalue).of_next.maybe

end

theorem past (h : Agree stretch reads reader reader')
    (hnext : ∀ value, Gives stretch reads₂ R (next value) (next' value)) :
    Gives stretch reads₂ R (reader >>= next) (reader' >>= next') :=
  h.bind fun value _ => hnext value

theorem first (h : Gives stretch ⊤ Q reader reader')
    (hnext : ∀ value, Q value → Gives stretch.next ⊥ R (next value) (next' value)) :
    Gives stretch reads₂ R (reader >>= next) (reader' >>= next') :=
  h.cases (fun _ _ hreads => absurd trivial hreads) fun value hvalue _ => hnext value hvalue

theorem lead (h : Gives stretch ⊤ Q reader reader')
    (hnext : ∀ value, Q value → Gives stretch ⊥ R (next value) (next' value)) :
    Gives stretch reads₂ R (reader >>= next) (reader' >>= next') :=
  h.first fun value hvalue => (hnext value hvalue).of_next

theorem eat {test : Reader Bool} (h : Moves stretch (· = true) test)
    (hyes : Gives stretch.next ⊥ Q reader reader') (hno : Gives stretch reads Q other other') :
    Gives stretch reads Q (do if ← test then reader else other)
      (do if ← test then reader' else other') := by
  refine h.cases (fun found _ hfound => ?_) fun found _ hfound => ?_
  · rw [if_neg hfound, if_neg hfound]
    exact hno
  · rw [if_pos hfound, if_pos hfound]
    exact hyes

theorem joined [Decidable condition] (h : Gives stretch reads Q reader reader')
    (hother : Gives stretch reads' Q other other')
    (hnext : ∀ value, Q value → Gives stretch reads₂ R (next value) (next' value)) :
    Gives stretch reads₂ R (if condition then reader >>= next else other >>= next)
      (if condition then reader' >>= next' else other' >>= next') :=
  .ite (h.bind hnext) (hother.bind hnext)

theorem forIn {f : α → PUnit → Reader (ForInStep PUnit)} {items : List α}
    (h : ∀ item ∈ items, Moves stretch ⊥ (f item ⟨⟩)) : Moves stretch ⊥ (forIn items ⟨⟩ f) := by
  induction items with
  | nil =>
    rw [List.forIn_nil]
    exact .pure trivial
  | cons item items ih =>
    rw [List.forIn_cons]
    refine .past (h item (by simp)) fun step => ?_
    cases step with
    | done value => exact .pure trivial
    | yield value => exact ih fun item hitem => h item (by simp [hitem])

/-! ## Repeating -/

theorem whileSome (hstart : Q start) {step step' : α → Reader (Option α)}
    (h : ∀ value, Q value → Gives stretch (·.isSome = true)
      (fun next? => ∀ next ∈ next?, Q next) (step value) (step' value)) :
    Gives stretch ⊥ Q (whileSome start step) (whileSome start step') := by
  intro before
  refine .whileSome (fun value _ hvalue => ?_) ⟨hstart, rfl⟩
  obtain ⟨hvalue, rfl⟩ := hvalue
  refine (h value hvalue _).mono (fun _ => id) fun next? after htold => ?_
  cases next? with
  | none => exact ⟨hvalue, htold.2⟩
  | some next => exact ⟨htold.1 next rfl, htold.2⟩

theorem many {item item' : Reader (Option α)}
    (h : Gives stretch (·.isSome = true) (fun next? => ∀ next ∈ next?, Q next) item item') :
    Gives stretch ⊥ (fun items => ∀ value ∈ items, Q value) (many item)
      (many item') := by
  have hround : ∀ items : List α, (∀ value ∈ items, Q value) → Gives stretch (·.isSome = true)
        (fun longer? => ∀ longer ∈ longer?, ∀ value ∈ longer, Q value)
        (do return (← item).map (· :: items))
        (do return (← item').map (· :: items)) := by
    intro items hitems
    refine h.cases (fun next? hnext hnone => ?_) fun next? hnext _ => .pure ?_
    · rw [Option.not_isSome_iff_eq_none.mp hnone]
      exact .nothing (by simp)
    · intro longer hlonger
      obtain ⟨next, rfl, rfl⟩ := Option.map_eq_some_iff.mp hlonger
      exact List.forall_mem_cons.mpr ⟨hnext next rfl, hitems⟩
  refine (whileSome (by simp) hround).bind fun items hitems => .pure ?_
  exact fun value hvalue => hitems value (List.mem_reverse.mp hvalue)

end Gives

end Reader

end Sml
