import Sml.Proofs.Stretch

/-!
# Reading words and lists

What the readers of single tokens do along the tokens, and what readers do
that repeat others.  None of them changes the operators in force.
-/

namespace Sml

variable {fault : ReadFault}

theorem Cursor.fault_errorHere (cursor : Cursor) (fault : ReadFault) (expected : List Expectation) :
    (cursor.errorHere fault expected).fault = fault := by
  unfold errorHere
  split
  · rfl
  · rfl

theorem Cursor.index_errorHere (cursor : Cursor) (fault : ReadFault) (expected : List Expectation) :
    (cursor.errorHere fault expected).index = cursor.index := by
  unfold errorHere
  split
  · rfl
  · rfl

theorem Token.constant?_ne_nesting {token : Token} (h : token.constant? = some (.error fault)) :
    fault ≠ .nesting := by
  rintro rfl
  unfold constant? at h
  split at h
  · simp only at h
    split at h
    · cases h
    · cases h
  · cases h
  · cases hread : unescape (quoted 1 token.text) with
    | ok | error =>
      rw [hread] at h
      cases h
  · split at h
    · cases h
    · cases h
    · cases h
  · cases h

namespace Reader

variable {α β : Type} {stretch : Stretch} {reads : α → Prop} {Q : α → Prop}
  {reader reader' : Reader α}

/-! ## Looking and failing -/

theorem bind_apply (reader : Reader α) (next : α → Reader β) (cursor : Cursor) :
    (reader >>= next) cursor =
      match reader cursor with
      | .ok value after => next value after
      | .error error after => .error error after := by
  change EStateM.bind reader next cursor = _
  unfold EStateM.bind
  cases reader cursor with
  | ok | error => rfl

theorem view_bind_apply (f : Cursor → α) (next : α → Reader β)
    (cursor : Cursor) : (view f >>= next) cursor = next (f cursor) cursor :=
  rfl

theorem moves_view (f : Cursor → α) : Moves stretch ⊥ (view f) := fun _ _ hcursor =>
    ⟨rfl, .refl _, False.elim, trivial, hcursor.operators⟩

theorem Gives.look {f : Cursor → β} {next next' : β → Reader α}
    (hnext : ∀ value, Gives stretch reads Q (next value) (next' value)) :
    Gives stretch reads Q (view f >>= next) (view f >>= next') :=
  .past (moves_view f) hnext

theorem moves_get : Moves stretch ⊥ (get : Reader Cursor) := moves_view id

theorem moves_advance : Moves stretch ⊥ advance :=
  fun _ cursor hcursor => ⟨rfl, cursor.onward_advance.1, False.elim, trivial,
    cursor.onward_advance.2.trans hcursor.operators⟩

namespace Gives

theorem failHere (h : fault ≠ .nesting) (expected : List Expectation) :
    Gives stretch reads Q (failHere fault expected) (failHere fault expected) := by
  refine .past moves_get fun cursor => .fail ?_
  rwa [cursor.fault_errorHere]

theorem unexpected (expected : Expectation) :
    Gives stretch reads Q (unexpected expected) (unexpected expected) := by
  refine .look fun next? => ?_
  split
  · exact .fail nofun
  · exact .fail nofun

end Gives

theorem gives_typeSequence : Gives stretch reads Q (do throw ((← get).errorHere .typeSequence []))
      (do throw ((← get).errorHere .typeSequence [])) := by
  refine fun _ cursor hcursor =>
    ⟨rfl, .refl _, ⟨?_, .inr ⟨?_, cursor.index_errorHere _ _⟩⟩, hcursor.operators⟩
  · rw [cursor.fault_errorHere]
    exact nofun
  · exact cursor.fault_errorHere _ _

/-! ## Single tokens -/

theorem eat_eq (p : Cursor → Bool) (cursor : Cursor) :
    (do if ← view p then advance; return true else return false : Reader Bool)
        cursor =
      if p cursor = true then .ok true cursor.advance else .ok false cursor := by
  change (if p cursor = true then _ else _ : Reader Bool) cursor = _
  split
  · rfl
  · rfl

theorem eatWord_eq (text : String) (cursor : Cursor) : eatWord text cursor =
      if (cursor.peek?.bind Token.name? == some text) = true then
        .ok true cursor.advance
      else .ok false cursor :=
  eat_eq _ _

theorem eatKind_eq (kind : TokenKind) (cursor : Cursor) : eatKind kind cursor =
      if (cursor.peek?.any (·.isKind kind)) = true then
        .ok true cursor.advance
      else .ok false cursor :=
  eat_eq _ _

theorem comes_advance {cursor : Cursor} {token : Token}
    {kept : OperatorTable → Prop} {told : α → OperatorTable → Prop} {value : α}
    (hpeek : cursor.peek? = some token) (h : told value cursor.operators) :
    Comes cursor kept reads told (.ok value cursor.advance) := by
  obtain ⟨honward, hoperators⟩ := cursor.onward_advance
  exact ⟨honward, fun _ => Cursor.index_lt_advance hpeek, hoperators ▸ h⟩

theorem moves_eat {p : Cursor → Bool}
    (hp : ∀ cursor, p cursor = true → ∃ token, cursor.peek? = some token) :
    Moves stretch (· = true) (do if ← view p then advance; return true else return false) := by
  intro before cursor hcursor
  refine ⟨rfl, ?_⟩
  rw [eat_eq]
  split
  · obtain ⟨token, hpeek⟩ := hp cursor ‹_›
    exact comes_advance hpeek ⟨trivial, hcursor.operators⟩
  · exact ⟨.refl _, nofun, trivial, hcursor.operators⟩

theorem moves_eatKind (kind : TokenKind) : Moves stretch (· = true) (eatKind kind) := by
  refine moves_eat fun cursor h => ?_
  obtain ⟨token, hpeek, -⟩ := Option.any_eq_true _ _ |>.mp h
  exact ⟨token, hpeek⟩

theorem moves_eatWord (text : String) : Moves stretch (· = true) (eatWord text) := by
  refine moves_eat fun cursor h => ?_
  obtain ⟨token, hpeek, -⟩ := Option.bind_eq_some_iff.mp (beq_iff_eq.mp h)
  exact ⟨token, hpeek⟩

theorem moves_punctuation (kind : TokenKind) (text : String) :
    Moves stretch ⊤ (punctuation kind text) :=
  .eat (moves_eatKind kind) (.pure trivial) (.unexpected _)

theorem moves_word (text : String) : Moves stretch ⊤ (word text) :=
  .eat (moves_eatWord text) (.pure trivial) (.unexpected _)

theorem gives_token {f : Token → Option α} {expected : Expectation}
    (h : ∀ token ∈ stretch.tokens, ∀ value ∈ f token, Q value) :
    Gives stretch ⊤ (fun read => Q read.1) (token f expected) (token f expected) := by
  intro before cursor hcursor
  refine ⟨rfl, ?_⟩
  rw [token, peek?, view_bind_apply]
  cases hpeek : cursor.peek? with
  | none => exact (Gives.unexpected expected before cursor hcursor).2
  | some token =>
    dsimp only
    cases hvalue : f token with
    | none => exact (Gives.unexpected expected before cursor hcursor).2
    | some value =>
      refine comes_advance hpeek ⟨h token ?_ value hvalue, hcursor.operators⟩
      exact hcursor.tokens ▸ Array.mem_of_getElem? hpeek

theorem moves_token (f : Token → Option α) (expected : Expectation) :
    Moves stretch ⊤ (token f expected) :=
  gives_token (Q := fun _ => True) fun _ _ _ _ => trivial

theorem gives_taken {f : Cursor → Option β} (hf : ∀ cursor value, f cursor = some value →
      ∃ token, cursor.peek? = some token) {next next' : Option β → Reader α}
    (hsome : ∀ value, ∃ taken, Q taken ∧
      next (some value) = (do advance; return taken) ∧
      next' (some value) = (do advance; return taken))
    (hnone : Gives stretch reads Q (next none) (next' none)) :
    Gives stretch reads Q (view f >>= next) (view f >>= next') := by
  intro before cursor hcursor
  rw [view_bind_apply, view_bind_apply]
  cases hvalue : f cursor with
  | none => exact hnone before cursor hcursor
  | some value =>
    obtain ⟨token, hpeek⟩ := hf cursor value hvalue
    obtain ⟨taken, htaken, hnext, hnext'⟩ := hsome value
    rw [hnext, hnext']
    exact ⟨rfl, comes_advance hpeek ⟨htaken, hcursor.operators⟩⟩

theorem moves_constant : Moves stretch ⊤ constant := by
  intro before cursor hcursor
  refine ⟨rfl, ?_⟩
  have hother : Moves stretch ⊤ (failHere .unexpectedToken [.constant] :
      Reader (Constant × Span)) := .failHere (by decide) _
  rw [constant, peek?, view_bind_apply]
  cases hpeek : cursor.peek? with
  | none => exact (hother before cursor hcursor).2
  | some token =>
    dsimp only
    cases hvalue : token.constant? with
    | none => exact (hother before cursor hcursor).2
    | some read =>
      cases read with
      | ok value => exact comes_advance hpeek ⟨trivial, hcursor.operators⟩
      | error fault =>
        have hfault := Token.constant?_ne_nesting hvalue
        exact (Gives.fail hfault before cursor hcursor).2

/-! ## Trying -/

namespace Gives

variable {separator : Reader β}

theorem attempt (h : Gives stretch reads Q reader reader') :
    Agree stretch (fun result => ∃ value, result = .ok value ∧ reads value)
      (attempt reader) (attempt reader') := by
  intro before cursor hcursor
  obtain ⟨hsame, hcomes⟩ := h before cursor hcursor
  unfold Reader.attempt
  rw [hsame]
  cases hresult : reader cursor with
  | ok value after =>
    rw [hresult] at hcomes
    refine ⟨rfl, hcomes.1, ?_, trivial, hcomes.2.2.2⟩
    rintro ⟨_, ⟨⟩, hreads⟩
    exact hcomes.2.1 hreads
  | error error after =>
    rw [hresult] at hcomes
    refine ⟨rfl, hcomes.1, ?_, trivial, hcomes.2.2⟩
    rintro ⟨_, ⟨⟩, _⟩

theorem orBack {Q : Option α → Prop} {reader reader' : Reader (Option α)}
    (h : Gives stretch (·.isSome = true) Q reader reader') :
    Gives stretch (·.isSome = true) Q (orBack reader) (orBack reader') := by
  intro before cursor hcursor
  obtain ⟨hsame, hcomes⟩ := h before cursor hcursor
  have horBack : ∀ reader : Reader (Option α), Reader.orBack reader cursor =
      EStateM.bind reader (fun result => do
        if result.isNone then moveTo cursor.index
        return result) cursor := fun _ => rfl
  rw [horBack, horBack]
  unfold EStateM.bind
  rw [hsame]
  cases hresult : reader cursor with
  | error error after =>
    rw [hresult] at hcomes
    exact ⟨rfl, hcomes⟩
  | ok result after =>
    rw [hresult] at hcomes
    obtain ⟨honward, hmoved, htold⟩ := hcomes
    cases result with
    | some value => exact ⟨rfl, honward, hmoved, htold⟩
    | none => exact ⟨rfl, ⟨honward.tokens, le_rfl, le_max_left _ _⟩, nofun, htold⟩

/-! ## Lists -/

private theorem rest_of_list {first : α} (hfirst : Q first) {item item' : Reader (Option α)}
    (h : Gives stretch (·.isSome = true) (fun next? => ∀ next ∈ next?, Q next) item item') :
    Gives stretch ⊥ (fun items => ∀ value ∈ items, Q value)
      (do return first :: (← Reader.many item))
      (do return first :: (← Reader.many item')) :=
  h.many.bind fun _ hrest => .pure (List.forall_mem_cons.mpr ⟨hfirst, hrest⟩)

variable (h : Gives stretch ⊤ Q reader reader')
include h

theorem afterEat {test : Reader Bool} (htest : Moves stretch (· = true) test) :
    Gives stretch (·.isSome = true) (fun next? => ∀ next ∈ next?, Q next)
      (do if ← test then return some (← reader) else return none)
      (do if ← test then return some (← reader') else return none) := by
  refine .eat htest ?_ (.nothing (by simp))
  exact h.of_next.bind fun value hvalue => .pure (by simpa using hvalue)

theorem separatedByKind (kind : TokenKind) : Gives stretch ⊤ (fun items => ∀ value ∈ items, Q value)
      (separatedByKind kind reader) (separatedByKind kind reader') :=
  h.lead fun _ hfirst => rest_of_list hfirst (h.afterEat (moves_eatKind kind))

theorem separatedByWord (text : String) : Gives stretch ⊤ (fun items => ∀ value ∈ items, Q value)
      (separatedByWord text reader) (separatedByWord text reader') :=
  h.lead fun _ hfirst => rest_of_list hfirst (h.afterEat (moves_eatWord text))

theorem afterWord (text : String) :
    Gives stretch (·.isSome = true) (fun next? => ∀ next ∈ next?, Q next)
      (afterWord text reader) (afterWord text reader') :=
  h.afterEat (moves_eatWord text)

omit h in
private theorem separator_eq_orBack (item : Reader α) (separator : Reader β) : (do
      let index ← view Cursor.index
      match ← Reader.attempt separator with
      | .ok _ => return some (← item)
      | .error _ => moveTo index; return none : Reader (Option α)) =
      Reader.orBack do
        match ← Reader.attempt separator with
        | .ok _ => return some (← item)
        | .error _ => return none := by
  funext cursor
  rw [Reader.orBack, view_bind_apply, view_bind_apply, bind_apply, bind_apply, bind_apply]
  cases Reader.attempt separator cursor with
  | error error after => rfl
  | ok result after =>
    cases result with
    | error error => rfl
    | ok value =>
      simp only [bind_apply item]
      cases item after with
      | ok | error => rfl

private theorem afterSeparator {separator : Reader β} (hseparator : Moves stretch ⊤ separator) :
    Gives stretch (·.isSome = true) (fun next? => ∀ next ∈ next?, Q next) (do
        let index ← view Cursor.index
        match ← Reader.attempt separator with
        | .ok _ => return some (← reader)
        | .error _ => moveTo index; return none)
      (do
        let index ← view Cursor.index
        match ← Reader.attempt separator with
        | .ok _ => return some (← reader')
        | .error _ => moveTo index; return none) := by
  rw [separator_eq_orBack, separator_eq_orBack]
  refine .orBack (hseparator.attempt.cases (fun result _ hresult => ?_) fun result _ _ => ?_)
  · cases result with
    | ok value => exact absurd ⟨value, rfl, trivial⟩ hresult
    | error error => exact .nothing (by simp)
  · cases result with
    | ok value => exact h.of_next.bind fun value hvalue => .pure (by simpa using hvalue)
    | error error => exact .pure (by simp)

theorem separated (hseparator : Moves stretch ⊤ separator) :
    Gives stretch ⊤ (fun items => ∀ value ∈ items, Q value)
      (separated reader separator) (separated reader' separator) :=
  h.lead fun _ hfirst => rest_of_list hfirst (afterSeparator h hseparator)

end Gives

theorem moves_skipSemicolons : Moves stretch ⊥ skipSemicolons := .whileSome trivial fun _ _ =>
    .eat (moves_eatKind _) (.pure (by simp)) (.nothing (by simp))

end Reader

end Sml
