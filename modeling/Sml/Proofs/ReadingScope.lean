import Sml.Proofs.OperatorScope
import Sml.Proofs.ReadingWords
import Sml.Proofs.TokenStarts
import Sml.Reading.Program

/-!
# Reading that changes the operators

Declarations and structures may change the operators in force.  What they
leave is told together with what they give.  Where a body is written without
`struct` that is told by the parenthesis its span begins with.
-/

namespace Sml

namespace Reader.Runs

variable {α β : Type} {stretch : Stretch} {before : OperatorTable} {reads : α → Prop}
  {reads₂ : β → Prop} {told : α → OperatorTable → Prop} {told₂ : β → OperatorTable → Prop}
  {reader reader' : Reader α} {next next' : α → Reader β} {Q : α → Prop}

/-! ## Rules -/

theorem bind_gives (h : Gives stretch reads Q reader reader')
    (hnext : ∀ value, Q value → Reads stretch before reads₂ told₂ (next value) (next' value)) :
    Reads stretch before reads₂ told₂ (reader >>= next) (reader' >>= next') := by
  refine (of_gives h).bind ?_
  rintro value _ ⟨hvalue, rfl⟩
  exact hnext value hvalue

theorem pure_bind {value : α} (h : Reads stretch before reads₂ told₂ (next value) (next' value)) :
    Reads stretch before reads₂ told₂ (Pure.pure value >>= next) (Pure.pure value >>= next') :=
  h

theorem past (h : Agree stretch reads reader reader')
    (hnext : ∀ value, Reads stretch before reads₂ told₂ (next value) (next' value)) :
    Reads stretch before reads₂ told₂ (reader >>= next) (reader' >>= next') :=
  .bind_gives h fun value _ => hnext value

theorem look {f : Cursor → β} {next next' : β → Reader α}
    (hnext : ∀ value, Reads stretch before reads told (next value) (next' value)) :
    Reads stretch before reads told (view f >>= next) (view f >>= next') :=
  .past (moves_view f) hnext

theorem joined {condition : Prop} [Decidable condition] {reads' : α → Prop}
    {other other' : Reader α} (h : Agree stretch reads reader reader')
    (hother : Agree stretch reads' other other')
    (hnext : ∀ value, Reads stretch before reads₂ told₂ (next value) (next' value)) :
    Reads stretch before reads₂ told₂ (if condition then reader >>= next else other >>= next)
      (if condition then reader' >>= next' else other' >>= next') :=
  .ite (.past h hnext) (.past hother hnext)

theorem start (h : Agree stretch ⊤ reader reader')
    (hnext : ∀ value, Reads stretch.next before ⊥ told₂ (next value) (next' value)) :
    Reads stretch before reads₂ told₂ (reader >>= next) (reader' >>= next') := by
  refine (of_gives h).first ?_
  rintro value _ ⟨-, rfl⟩
  exact hnext value

theorem eat {test : Reader Bool} (h : Moves stretch (· = true) test) {other other' : Reader α}
    (hyes : Reads stretch.next before ⊥ told reader reader')
    (hno : Reads stretch before reads told other other') :
    Reads stretch before reads told (do if ← test then reader else other)
      (do if ← test then reader' else other') := by
  refine (of_gives h).cases ?_ ?_
  · rintro found _ ⟨-, rfl⟩ hfound
    rw [if_neg hfound, if_neg hfound]
    exact hno
  · rintro found _ ⟨-, rfl⟩ hfound
    rw [if_pos hfound, if_pos hfound]
    exact hyes

theorem failHere {fault : ReadFault} (h : fault ≠ .nesting) (expected : List Expectation) :
    Reads stretch before reads told (failHere fault expected)
      (failHere fault expected) :=
  (of_gives (Gives.failHere (Q := fun _ => False) h expected)).mono
    (fun _ => id) fun _ _ hfalse => hfalse.1.elim

theorem operators_bind {next next' : OperatorTable → Reader β}
    (hnext : Reads stretch before reads₂ told₂ (next before) (next' before)) :
    Reads stretch before reads₂ told₂ (view Cursor.operators >>= next)
      (view Cursor.operators >>= next') := by
  intro cursor hcursor
  rw [view_bind_apply, view_bind_apply, hcursor.operators]
  exact hnext cursor hcursor

theorem restore (after : OperatorTable) : Reads stretch before ⊥ (fun _ after' => after' = after)
      (restoreOperators after) (restoreOperators after) :=
  fun _ _ => ⟨rfl, ⟨rfl, le_rfl, le_max_left _ _⟩, False.elim, rfl⟩

/-! ## Repeating -/

/-- Items that each change the operators change them one after the other.  What
they do to the operators may be known under a condition only. -/
theorem many (ordered : Prop) (change : OperatorTable → α → OperatorTable)
    {item item' : Reader (Option α)} (h : ∀ before, Reads stretch before (·.isSome = true)
      (fun next? after => (∀ next ∈ next?, Q next) ∧
        (ordered → after = (next?.map (change before)).getD before)) item item')
    (before : OperatorTable) :
    Reads stretch before ⊥ (fun items after => (∀ value ∈ items, Q value) ∧
        (ordered → after = items.foldl change before))
      (Reader.many item) (Reader.many item') := by
  have hloop : Reads stretch before ⊥ (fun items after => (∀ value ∈ items, Q value) ∧
        (ordered → after = items.reverse.foldl change before))
      (Reader.whileSome [] fun items => do return (← item).map (· :: items))
      (Reader.whileSome [] fun items => do return (← item').map (· :: items)) := by
    refine whileSome (fun items middle hmiddle => ?_) ⟨by simp, fun _ => rfl⟩
    refine (h middle).cases (fun next? after hafter hnone => ?_)
      fun next? after hafter hsome => .pure ?_
    · rw [Option.not_isSome_iff_eq_none.mp hnone] at hafter ⊢
      exact .nothing ⟨hmiddle.1, fun hordered => (hafter.2 hordered).trans (hmiddle.2 hordered)⟩
    · obtain ⟨next, rfl⟩ := Option.isSome_iff_exists.mp hsome
      refine ⟨List.forall_mem_cons.mpr ⟨hafter.1 next rfl, hmiddle.1⟩, fun hordered => ?_⟩
      rw [hafter.2 hordered, hmiddle.2 hordered]
      simp
  refine hloop.bind fun items after hafter => .pure ⟨?_, hafter.2⟩
  exact fun value hvalue => hafter.1 value (List.mem_reverse.mp hvalue)

theorem separatedByWord {ordered : Prop} (text : String)
    {change : OperatorTable → α → OperatorTable} (h : ∀ before, Reads stretch before ⊤
      (fun value after => Q value ∧ (ordered → after = change before value))
      reader reader') (before : OperatorTable) :
    Reads stretch before ⊤ (fun items after => (∀ value ∈ items, Q value) ∧
        (ordered → after = items.foldl change before))
      (separatedByWord text reader)
      (separatedByWord text reader') := by
  have hitem : ∀ before, Reads stretch before (·.isSome = true)
      (fun next? after => (∀ next ∈ next?, Q next) ∧
        (ordered → after = (next?.map (change before)).getD before))
      (do if ← eatWord text then return some (← reader) else return none)
      (do if ← eatWord text then return some (← reader') else return none) := by
    intro before
    refine .eat (moves_eatWord _) ?_ (.nothing (by simp))
    exact (h before).of_next.bind fun value after hafter => .pure (by simpa using hafter)
  refine (h before).lead fun first middle hmiddle => ?_
  refine (many ordered change hitem middle).bind fun rest after hafter => .pure ⟨?_, ?_⟩
  · exact List.forall_mem_cons.mpr ⟨hmiddle.1, hafter.1⟩
  · intro hordered
    rw [hafter.2 hordered, hmiddle.2 hordered, List.foldl_cons]

end Reader.Runs

section WithOperators

variable {α : Type} {reader : Reader α} {cursor after : Cursor}

theorem Reader.withOperators_of_ok {value : α} (h : reader cursor = .ok value after) :
    withOperators reader cursor = .ok value { after with operators := cursor.operators } := by
  have hattempt : attempt reader cursor = .ok (.ok value) after := by rw [attempt, h]
  change EStateM.bind (attempt reader) _ cursor = _
  rw [EStateM.bind, hattempt]
  rfl

theorem Reader.withOperators_of_error {error : ReadError} (h : reader cursor = .error error after) :
    withOperators reader cursor = .error error { after with operators := cursor.operators } := by
  have hattempt : attempt reader cursor = .ok (.error error) after := by rw [attempt, h]
  change EStateM.bind (attempt reader) _ cursor = _
  rw [EStateM.bind, hattempt]
  rfl

end WithOperators

theorem Reader.Gives.withOperators {α : Type} {stretch : Stretch}
    {Q : α → Prop} {reader reader' : Reader α}
    (h : ∀ before, Reads stretch before ⊥ (fun value _ => Q value) reader reader') :
    Gives stretch ⊥ Q (withOperators reader) (withOperators reader') := by
  intro before cursor hcursor
  obtain ⟨hsame, hcomes⟩ := h before cursor hcursor
  cases hresult : reader cursor with
  | ok value after =>
    rw [hresult] at hcomes
    rw [withOperators_of_ok hresult, withOperators_of_ok (hsame.trans hresult)]
    obtain ⟨⟨htokens, hindex, hinside⟩, hmoved, hvalue⟩ := hcomes
    exact ⟨rfl, ⟨htokens, hindex, hinside⟩, hmoved, hvalue, hcursor.operators⟩
  | error error after =>
    rw [hresult] at hcomes
    rw [withOperators_of_error hresult, withOperators_of_error (hsame.trans hresult)]
    obtain ⟨⟨htokens, hindex, hinside⟩, ⟨hfault, hrecorded⟩, -⟩ := hcomes
    exact ⟨rfl, ⟨htokens, hindex, hinside⟩, ⟨hfault, hrecorded⟩, hcursor.operators⟩

/-- A parenthesis opens where the span starts. -/
def Cursor.opens (tokens : Array Token) (span : Span) : Bool := tokens.any fun token =>
    token.kind == .leftParen && token.span.start == span.start

/-! ## Where spans start -/

variable {token : Token}
variable {after : Cursor}

namespace Reading

open Reader

variable {α : Type} {tokens : Array Token} {stretch : Stretch}
  {before : OperatorTable} {reads : α → Prop} {told : α → OperatorTable → Prop}

variable {cursor : Cursor}

theorem not_unexpected_ok {expected : Expectation} {value : α} :
    (unexpected expected : Reader α) cursor ≠ .ok value after := by
  intro h
  obtain ⟨next?, middle, -, h⟩ := bind_eq_ok_state h
  split at h
  · cases h
  · cases h

theorem leftParen_ok (h : leftParen cursor = .ok () after) :
    ∃ token, cursor.peek? = some token ∧ token.kind = .leftParen := by
  obtain ⟨read, middle, hread, h⟩ := bind_eq_ok_state h
  rw [eatKind_eq] at hread
  split at hread
  · rename_i hkind
    cases hpeek : cursor.peek? with
    | none =>
      rw [hpeek] at hkind
      cases hkind
    | some token =>
      rw [hpeek] at hkind
      exact ⟨token, rfl, beq_iff_eq.mp hkind⟩
  · cases hread
    exact absurd h not_unexpected_ok

theorem currentSpan_of_peek? (h : cursor.peek? = some token) : cursor.currentSpan = token.span := by
  unfold Cursor.currentSpan
  rw [h]
  rfl

theorem mem_of_peek? (h : cursor.peek? = some token) : token ∈ cursor.tokens :=
  Array.mem_of_getElem? h

theorem opens_eq_true (hmem : token ∈ tokens) (hkind : token.kind = .leftParen) :
    Cursor.opens tokens token.span = true := by
  unfold Cursor.opens
  simp only [Array.any_eq_true', Bool.and_eq_true, beq_iff_eq]
  exact ⟨token, hmem, hkind, rfl⟩

theorem opens_eq_false (hordered : StartsInOrder tokens.toList) (hmem : token ∈ tokens)
    (hkind : token.kind ≠ .leftParen) : Cursor.opens tokens token.span = false := by
  unfold Cursor.opens
  simp only [Array.any_eq_false', Bool.and_eq_true, beq_iff_eq, not_and]
  intro other hother hleft hstart
  have heq := hordered.eq_of_start (by simpa using hother) (by simpa using hmem) hstart
  exact hkind (heq ▸ hleft)

theorem reads_start_leftParen {next next' : Span → Reader α}
    (h : ∀ start, Cursor.opens stretch.tokens start = true →
      Reads stretch before ⊥ told (next start) (next' start)) :
    Reads stretch before ⊥ told (do
        let start ← currentSpan
        leftParen
        next start)
      (do
        let start ← currentSpan
        leftParen
        next' start) := by
  intro cursor hcursor
  obtain ⟨-, hcomes⟩ := moves_punctuation .leftParen "(" before cursor hcursor
  rw [currentSpan, view_bind_apply, view_bind_apply, bind_apply, bind_apply]
  cases hresult : leftParen cursor with
  | error error after =>
    rw [show punctuation .leftParen "(" cursor = _ from hresult] at hcomes
    exact ⟨rfl, hcomes.1, hcomes.2.1, trivial⟩
  | ok value after =>
    rw [show punctuation .leftParen "(" cursor = _ from hresult] at hcomes
    obtain ⟨token, hpeek, hkind⟩ := leftParen_ok hresult
    have hopens : Cursor.opens stretch.tokens cursor.currentSpan = true := by
      rw [currentSpan_of_peek? hpeek]
      exact opens_eq_true (hcursor.tokens ▸ mem_of_peek? hpeek) hkind
    obtain ⟨hsame, hafter⟩ := h _ hopens after (hcomes.2.2.2 ▸ hcomes.1.stays hcursor)
    exact ⟨hsame, hafter.after hcomes.1⟩

theorem reads_start_eatWord (text : String) {next next' : Span → Reader α}
    {other other' : Span → Reader α} (hyes : ∀ start, (StartsInOrder stretch.tokens.toList →
        Cursor.opens stretch.tokens start = false) →
      Reads stretch.next before ⊥ told (next start) (next' start))
    (hno : ∀ start, Reads stretch before reads told (other start) (other' start)) :
    Reads stretch before reads told (do
        let start ← currentSpan
        if ← eatWord text then next start else other start)
      (do
        let start ← currentSpan
        if ← eatWord text then next' start else other' start) := by
  intro cursor hcursor
  have heat := moves_eatWord text before cursor hcursor
  rw [currentSpan, view_bind_apply, view_bind_apply, bind_apply, bind_apply]
  rw [eatWord_eq] at heat ⊢
  by_cases hword : (cursor.peek?.bind Token.name? == some text) = true
  · rw [if_pos hword] at heat ⊢
    obtain ⟨token, hpeek, hname⟩ := Option.bind_eq_some_iff.mp (beq_iff_eq.mp hword)
    obtain ⟨-, honward, hmoved, -, hoperators⟩ := heat
    have hopens : StartsInOrder stretch.tokens.toList →
        Cursor.opens stretch.tokens cursor.currentSpan = false := by
      intro hordered
      rw [currentSpan_of_peek? hpeek]
      refine opens_eq_false hordered (hcursor.tokens ▸ mem_of_peek? hpeek) ?_
      intro hkind
      simp [Token.name?, hkind] at hname
    obtain ⟨hsame, hafter⟩ := hyes _ hopens cursor.advance
      (hoperators ▸ honward.next hcursor (hmoved rfl))
    exact ⟨hsame, hafter.after_read honward (hmoved rfl)⟩
  · rw [if_neg hword]
    exact hno _ cursor hcursor

theorem reads_spanFrom (start : Span) {next next' : Span → Reader α}
    (h : ∀ span, Cursor.opens stretch.tokens span = Cursor.opens stretch.tokens start →
      Reads stretch before reads told (next span) (next' span)) :
    Reads stretch before reads told (spanFrom start >>= next) (spanFrom start >>= next') :=
  fun cursor hcursor => h (start.merge cursor.previousSpan) rfl cursor hcursor

end Reading

end Sml
