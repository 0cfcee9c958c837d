import Sml.Proofs.ReadingNames

/-!
# Where reading ends

Reading never runs out of depth: the readers that are cut off below the number
of tokens are the one family of readers that call each other without a bound.
They end no further back than they began and not past the last token, and
they leave the operators as they are unless they read declarations.

A program that cannot be read is reported by the failure furthest into its
tokens.  That failure is no further back than where reading stopped, unless a
list of types that is applied to nothing ended it.
-/

namespace Sml

variable {α : Type} {kept : OperatorTable → Prop} {cursor : Cursor}
variable {reads : α → Prop} {told : α → OperatorTable → Prop}

namespace Reader.Runs

theorem congr {stretch : Stretch} {before : OperatorTable} {reader reader' other : Reader α}
    (h : Runs stretch before kept reads told reader reader')
    (hother : ∀ cursor, cursor.tokens = stretch.tokens → other cursor = reader' cursor) :
    Runs stretch before kept reads told reader other := by
  intro cursor hcursor
  rw [hother cursor hcursor.tokens]
  exact h cursor hcursor

end Reader.Runs

variable {family : Phrases}

namespace Phrases

theorem Deep.pred {depth : Nat} (h : family.Deep (depth + 1)) : family.Deep depth := by
  induction depth generalizing family with
  | zero => trivial
  | succ depth ih =>
    obtain ⟨inner, hinner, hover⟩ := h
    exact ⟨inner, ih hinner, hover⟩

theorem Over.deep (h : family.Over family) (depth : Nat) : family.Deep depth := by
  induction depth with
  | zero => trivial
  | succ depth ih => exact ⟨family, ih, h⟩

end Phrases

namespace Reading

open Reader

def readers : Phrases where
  type := fun cursor => read Phrases.type cursor
  pattern := fun cursor => read Phrases.pattern cursor
  expr := fun cursor => read Phrases.expr cursor
  decl := fun cursor => read Phrases.decl cursor
  strExp := fun cursor => read Phrases.strExp cursor
  sigExp := fun cursor => read Phrases.sigExp cursor

private theorem in_self (cursor : Cursor) :
    cursor.In ⟨cursor.tokens, cursor.index, false⟩ cursor.operators :=
  ⟨rfl, le_rfl, nofun, rfl⟩

private theorem alike_phrases (cursor : Cursor) :
    (phrases (cursor.tokens.size + 1)).Alike (fun _ => True) ⟨cursor.tokens, cursor.index, false⟩
      (phrases (cursor.tokens.size + 1)) :=
  alike_of_deep_size (fun _ _ _ => trivial) _ (deep_phrases _) (deep_phrases _)

/-! ## Without a bound -/

theorem eq_readers (h : ∀ cursor : Cursor, (phrases (cursor.tokens.size + 1)).Alike
      (fun _ => True) ⟨cursor.tokens, cursor.index, false⟩ family) : family = readers := by
  have hcursor := in_self
  obtain ⟨type, pattern, expr, decl, strExp, sigExp⟩ := family
  obtain rfl := funext fun cursor => ((h cursor).type _ _ (hcursor cursor)).1
  obtain rfl := funext fun cursor => ((h cursor).pattern _ _ (hcursor cursor)).1
  obtain rfl := funext fun cursor => ((h cursor).expr _ _ (hcursor cursor)).1
  obtain rfl := funext fun cursor => ((h cursor).decl _ _ (hcursor cursor)).1
  obtain rfl := funext fun cursor => ((h cursor).strExp _ _ (hcursor cursor)).1
  obtain rfl := funext fun cursor => ((h cursor).sigExp _ _ (hcursor cursor)).1
  rfl

theorem eq_readers_of_over (h : family.Over family) : family = readers := eq_readers fun _ =>
    alike_of_deep_size (fun _ _ _ => trivial) _ (deep_phrases _) (h.deep _)

private theorem alike_readers (tokens : Array Token) (start : Nat) :
    (phrases tokens.size).Alike (fun _ => True) ⟨tokens, start + 1, true⟩
      readers := by
  have hsize : tokens.size < start + 1 + tokens.size := by omega
  have h : (phrases tokens.size).Alike (fun _ => True)
      ⟨tokens, start + 1, true⟩ (phrases (tokens.size + 1)) :=
    alike_of_deep (fun _ _ _ => trivial) (deep_phrases _) (deep_phrases _).pred hsize
  have hsame : ∀ {α : Type} (select : Phrases → Reader α) (cursor : Cursor),
      cursor.tokens = tokens → read select cursor = select (phrases (tokens.size + 1)) cursor := by
    rintro α select cursor rfl
    rfl
  exact
    { type := fun before => (h.type before).congr (hsame Phrases.type)
      pattern := fun before => (h.pattern before).congr (hsame Phrases.pattern)
      expr := fun before => (h.expr before).congr (hsame Phrases.expr)
      sigExp := fun before => (h.sigExp before).congr (hsame Phrases.sigExp)
      decl := fun before => (h.decl before).congr (hsame Phrases.decl)
      strExp := fun before => (h.strExp before).congr (hsame Phrases.strExp) }

theorem over_readers : readers.Over readers := by
  let outer : Phrases := ⟨type readers, pattern readers, expr readers,
    declarations readers, strExp readers, sigExp readers⟩
  have houter : outer.Over readers := ⟨rfl, rfl, rfl, rfl, rfl, rfl⟩
  have hsame : outer = readers := eq_readers fun cursor =>
    alike_of_over (over_phrases _) houter (alike_readers _ _) fun _ _ _ => trivial
  rwa [hsame] at houter

/-! ## Ends -/

/-- The run has not been cut off, and ends in front of where it began, or at
least no further back. -/
def Ends {α : Type} (cursor : Cursor) (further : Prop) : EStateM.Result ReadError Cursor α → Prop
  | .ok _ after =>
    cursor.Onward after ∧ (further → cursor.index < after.index)
  | .error error after => cursor.Onward after ∧ error.fault ≠ .nesting

private theorem ends {result : EStateM.Result ReadError Cursor α} {further : Prop}
    (h : Comes cursor kept reads told result) (hreads : ∀ value, further → reads value) :
    Ends cursor further result := by
  cases result with
  | ok value after => exact ⟨h.1, fun hfurther => h.2.1 (hreads value hfurther)⟩
  | error error after => exact ⟨h.1, h.2.1.fault⟩

/-- The readers call each other without a bound, and no others do so.  All of
them end. -/
theorem readers_end : (∀ family : Phrases, family.Over family ↔ family = readers) ∧
      ∀ cursor : Cursor, Ends cursor True (read Phrases.type cursor) ∧
        Ends cursor True (read Phrases.pattern cursor) ∧
        Ends cursor True (read Phrases.expr cursor) ∧
        Ends cursor True (read Phrases.strExp cursor) ∧
        Ends cursor True (read Phrases.sigExp cursor) ∧
        Ends cursor False (read Phrases.decl cursor) ∧
        Ends cursor False (read program cursor) := by
  refine ⟨fun family => ⟨eq_readers_of_over, fun h => h ▸ over_readers⟩, fun cursor => ?_⟩
  have h := alike_phrases cursor
  have hcursor := in_self cursor
  have hprogram := reads_program h (fun _ _ _ => trivial) _ cursor hcursor
  exact ⟨ends (h.type _ cursor hcursor).2 fun _ _ => trivial,
    ends (h.pattern _ cursor hcursor).2 fun _ _ => trivial,
    ends (h.expr _ cursor hcursor).2 fun _ _ => trivial,
    ends (h.strExp _ cursor hcursor).2 fun _ _ => trivial,
    ends (h.sigExp _ cursor hcursor).2 fun _ _ => trivial,
    ends (h.decl _ cursor hcursor).2 fun _ => False.elim,
    ends hprogram.2 fun _ => False.elim⟩

/-! ## Operators -/

private theorem operators_leaves {Q : α → Prop} {select : Phrases → Reader α} {other : Reader α}
    (h : Gives ⟨cursor.tokens, cursor.index, false⟩ reads Q
      (select (phrases (cursor.tokens.size + 1))) other) :
    (leaves (read select) cursor).operators = cursor.operators := by
  have hcomes := (h _ cursor (in_self cursor)).2
  change (leaves (select (phrases (cursor.tokens.size + 1))) cursor).operators = _
  rw [leaves]
  cases hresult : select (phrases (cursor.tokens.size + 1)) cursor with
  | ok value after =>
    rw [hresult] at hcomes
    exact hcomes.2.2.2
  | error error after =>
    rw [hresult] at hcomes
    exact hcomes.2.2

/-- Types, patterns and expressions leave the operators as they are, also
where they cannot be read. -/
theorem leaves_read_operators (cursor : Cursor) :
    (leaves (read Phrases.expr) cursor).operators = cursor.operators ∧
      (leaves (read Phrases.pattern) cursor).operators = cursor.operators ∧
      (leaves (read Phrases.type) cursor).operators = cursor.operators := by
  have h := alike_phrases cursor
  exact ⟨operators_leaves h.expr, operators_leaves h.pattern, operators_leaves h.type⟩

/-- The operator is in force in the body, where it cannot stand alone. -/
example : (match tokenize "let infix 6 ++ in ++ end" with
      | .error _ => none
      | .ok tokens =>
        match read Phrases.expr (start tokens []) with
        | .ok _ _ => none
        | .error error after => some (error.fault, after.operators)) =
      some (.bareOperator, []) := by
  decide +kernel

/-! ## Reports -/

/-- The report is no further back than where reading stopped, unless a list of
types that is applied to nothing ended it and something failed before. -/
theorem readProgram_reported {tokens : List Token} {operators : OperatorTable} {error : ReadError}
    {after : Cursor} (h : read program (start tokens operators) = .error error after) :
    ∃ reported, readProgram (start tokens operators) = .error reported after ∧
      (after.index ≤ reported.index ↔ error.fault ≠ .typeSequence ∨
        ∀ furthest ∈ after.furthest, after.index ≤ furthest.index) := by
  have hcomes := (reads_program (alike_phrases (start tokens operators))
    (fun _ _ _ => trivial) _ _ (in_self _)).2
  unfold read at h
  rw [h] at hcomes
  obtain ⟨-, hstopped, -⟩ := hcomes
  refine ⟨after.furthest.getD error, by rw [readProgram, h], ?_⟩
  cases hfurthest : after.furthest with
  | none =>
    have hrecorded := hstopped.recorded
    simp only [hfurthest, Option.not_mem_none, false_and, exists_false, false_or] at hrecorded
    simp [hrecorded.2]
  | some furthest =>
    have hrecorded := hstopped.recorded
    simp only [hfurthest, Option.mem_some_iff, exists_eq_left'] at hrecorded
    simp only [Option.getD_some, Option.mem_some_iff, forall_eq']
    refine ⟨.inr, fun h => h.elim (fun hfault => ?_) id⟩
    exact hrecorded.resolve_right fun hsequence => hfault hsequence.1

/-- Where reading a text stopped, what ended it and where that is reported. -/
def report? (text : String) : Option (Nat × ReadFault × Nat) :=
  match tokenize text with
  | .error _ => none
  | .ok tokens =>
    match read program (start tokens []), readProgram (start tokens []) with
    | .error error after, .error reported _ =>
      some (after.index, error.fault, reported.index)
    | _, _ => none

/-- The second declaration ends too early, and that is reported although the
list before it has recorded a failure. -/
theorem readProgram_reported_end : ∃ tokens error after reported,
      tokenize "val y = [1] val x" = .ok tokens ∧
      read program (start tokens []) = .error error after ∧
      readProgram (start tokens []) = .error reported after ∧
      after.index ≤ reported.index := by
  have hreport : report? "val y = [1] val x" = some (8, .unexpectedEnd, 8) := by
    decide +kernel
  unfold report? at hreport
  split at hreport
  · cases hreport
  · rename_i tokens htokens
    split at hreport
    · rename_i error after _ _ hread _
      obtain ⟨reported, hreported, hiff⟩ := readProgram_reported hread
      refine ⟨tokens, error, after, reported, htokens, hread, hreported, hiff.mpr (.inl ?_)⟩
      simp only [Option.some.injEq, Prod.mk.injEq] at hreport
      rw [hreport.2.1]
      decide
    · cases hreport

/-- The list records a failure before its end, which is reported although
reading stopped at the type of the next declaration. -/
theorem report?_before_stop : report? "val y = [1] val x : (int, int) = 3" =
      some (14, .typeSequence, 5) := by
  decide +kernel

end Reading

end Sml
