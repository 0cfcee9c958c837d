import Sml.Proofs.Solution

/-!
# Single steps of instantiation and merging

What the success of one step says, before anything is known of the types.
-/

namespace Sml.Store

/-- The store in which one variable takes the place of another, with a domain
for both. -/
def join (store : Store) (survivor victim : String) (domain : List Ty) (free : Bool) : Store :=
  let bound := store.bind victim (.var survivor domain free) free
  if domain.isEmpty then bound
  else (bound.constrain survivor domain).constrain victim domain

end Sml.Store

namespace Sml.Ty

variable {α β ε : Type}
variable {action : Except ε α} {result : β} {f : α → Except ε β} {items : List α} {results : List β}

theorem equalityName_injective {name other : String}
    (h : equalityName name = equalityName other) : name = other := by
  apply String.ext
  have htexts := congrArg String.toList h
  simpa [equalityName] using htexts

@[simp] theorem ok_bind (value : α) (f : α → Except ε β) : (Except.ok value >>= f) = f value := rfl

@[simp] theorem error_bind (fault : ε) (f : α → Except ε β) :
    (Except.error fault >>= f) = .error fault := rfl

theorem bind_eq_ok {next : α → Except ε β} (h : action >>= next = .ok result) :
    ∃ value, action = .ok value ∧ next value = .ok result := by
  cases action with
  | error fault => cases h
  | ok value => exact ⟨value, rfl, h⟩

theorem eq_ok_of_toOption {value : α} (h : action.toOption = some value) : action = .ok value := by
  cases action with
  | error fault => cases h
  | ok found => exact congrArg Except.ok (Option.some.inj h)

theorem mapError_bind_eq_ok {ε' : Type} {f : ε → ε'} {next : α → Except ε' β}
    (h : action.mapError f >>= next = .ok result) :
    ∃ value, action = .ok value ∧ next value = .ok result := by
  cases action with
  | error fault => cases h
  | ok value => exact ⟨value, rfl, h⟩

theorem eq_ok_of_mapM (h : items.mapM f = .ok results) :
    ∀ item ∈ items, ∃ result, f item = .ok result := by
  induction items generalizing results with
  | nil => simp
  | cons item items ih =>
    rw [List.mapM_cons] at h
    obtain ⟨first, hfirst, hrest⟩ := bind_eq_ok h
    obtain ⟨others, hothers, _⟩ := bind_eq_ok hrest
    intro other hother
    rcases List.mem_cons.mp hother with rfl | hother
    · exact ⟨first, hfirst⟩
    · exact ih hothers other hother

theorem length_of_mapM (h : items.mapM f = .ok results) : results.length = items.length := by
  induction items generalizing results with
  | nil =>
    cases h
    rfl
  | cons item items ih =>
    rw [List.mapM_cons] at h
    obtain ⟨first, _, hrest⟩ := bind_eq_ok h
    obtain ⟨others, hothers, hlast⟩ := bind_eq_ok hrest
    cases hlast
    rw [List.length_cons, ih hothers, List.length_cons]

theorem mapM_eq_ok {g : α → β} (h : ∀ item ∈ items, f item = .ok (g item)) :
    items.mapM f = .ok (items.map g) := by
  induction items with
  | nil => rfl
  | cons item items ih =>
    rw [List.mapM_cons, h item (by simp), ih fun item hitem => h item (by simp [hitem])]
    rfl

/-- When variables are merged: something is left of their domains, if they
have any, and of two names the smaller stays. -/
theorem mergeVariables_eq_ok {store store' : Store} {this that : Binder}
    {merged : Ty} (h : mergeVariables store this that = .ok (merged, store')) :
    (mergeDomain this.domain that.domain = [] → this.domain = [] ∧ that.domain = []) ∧
    ((this.name = that.name ∧ merged = var this.name
        (mergeDomain this.domain that.domain) (this.free && that.free) ∧
        store' = store) ∨
      ∃ survivor victim : Binder, ((survivor = this ∧ victim = that) ∨
          (survivor = that ∧ victim = this)) ∧
        survivor.name < victim.name ∧
        merged = var survivor.name (mergeDomain this.domain that.domain) (this.free || that.free) ∧
        store' = store.join survivor.name victim.name
          (mergeDomain this.domain that.domain) (this.free || that.free)) := by
  rw [mergeVariables] at h
  simp only at h
  split at h
  · cases h
  · rename_i hdomain
    refine ⟨fun hempty => by simpa [hempty] using hdomain, ?_⟩
    split at h
    · rename_i heq
      cases h
      exact .inl ⟨heq, rfl, rfl⟩
    · rename_i hne
      right
      by_cases hlt : this.name < that.name
      · simp only [if_pos hlt, Except.ok.injEq, Prod.mk.injEq] at h
        exact ⟨this, that, .inl ⟨rfl, rfl⟩, hlt, h.1.symm, h.2.symm⟩
      · simp only [if_neg hlt, Except.ok.injEq, Prod.mk.injEq] at h
        refine ⟨that, this, .inr ⟨rfl, rfl⟩, ?_, h.1.symm, h.2.symm⟩
        by_contra hgt
        exact hne (String.le_antisymm (String.not_lt.mp hgt) (String.not_lt.mp hlt))

/-- When a variable is bound: it does not occur in the type, the type admits
equality if the variable demands it, perhaps after its own variables were made
to, and it lies in the variable's domain. -/
theorem bindTo_eq_ok_iff {depth : Nat} {env : TypeEnv} {store store' : Store}
    {binder : Binder} {other merged : Ty} :
    bindTo (depth + 1) env store binder other = .ok (merged, store') ↔
      Table.contains (other.variableDomains false) binder.name = false ∧
      ∃ middle, ((merged = binder.mark other ∧ middle = store ∧ (isEqualityName binder.name = true →
              admitsWithin (fun env => instantiateTo depth env [] {})
                unfoldingRoom env (binder.mark other) = some true)) ∨
          (isEqualityName binder.name = true ∧
            admitsWithin (fun env => instantiateTo depth env [] {})
              unfoldingRoom env (binder.mark other) ≠ some true ∧
            makeEqTo depth env store (binder.mark other) = .ok (merged, middle) ∧
            admitsWithin (fun env => instantiateTo depth env [] {})
              unfoldingRoom env merged = some true)) ∧
        (binder.domain.isEmpty = true ∨ (mergeDomain binder.domain [merged]).isEmpty = false) ∧
        store' = middle.bind binder.name merged binder.free := by
  rw [bindTo]
  simp only [mismatch]
  cases hcontains : Table.contains (other.variableDomains false) binder.name
  case true => simp [throw, throwThe, MonadExceptOf.throw]
  case false =>
    have hlast : ∀ {candidate : Ty} {middle : Store}, (if (!binder.domain.isEmpty &&
              (mergeDomain binder.domain [candidate]).isEmpty) = true then
            Except.error (MergeFault.mismatch ⟨.outsideDomain,
              .var binder.name binder.domain binder.free, candidate⟩)
          else pure (candidate, middle.bind binder.name candidate binder.free)) =
          Except.ok (merged, store') ↔
        merged = candidate ∧ (binder.domain.isEmpty = true ∨
            (mergeDomain binder.domain [merged]).isEmpty = false) ∧
          store' = middle.bind binder.name merged binder.free := by
      intro candidate middle
      split
      · rename_i houtside
        simp only [Bool.and_eq_true, Bool.not_eq_true'] at houtside
        constructor
        · rintro ⟨⟩
        · rintro ⟨rfl, hinside, _⟩
          simp [houtside] at hinside
      · rename_i hinside
        simp only [Bool.and_eq_true, Bool.not_eq_true', not_and_or,
          Bool.not_eq_false, Bool.not_eq_true] at hinside
        constructor
        · rintro ⟨⟩
          exact ⟨rfl, hinside, rfl⟩
        · rintro ⟨rfl, _, rfl⟩
          rfl
    simp only [Bool.false_eq_true, if_false, pure_bind, true_and]
    split
    · rename_i hneeds
      simp only [Bool.and_eq_true, bne_iff_ne] at hneeds
      split
      · rename_i candidate middle hmade
        split
        · rename_i hadmits
          rw [hlast]
          constructor
          · rintro ⟨rfl, h⟩
            exact ⟨middle, .inr ⟨hneeds.1, hneeds.2, hmade, hadmits⟩, h⟩
          · rintro ⟨_, ⟨_, _, h⟩ | ⟨_, _, h, _⟩, hrest⟩
            · exact absurd (h hneeds.1) hneeds.2
            · rw [hmade] at h
              cases h
              exact ⟨rfl, hrest⟩
        all_goals
          rename_i hadmits
          constructor
          · rintro ⟨⟩
          · rintro ⟨_, ⟨_, _, h⟩ | ⟨_, _, h, h'⟩, hrest⟩
            · exact absurd (h hneeds.1) hneeds.2
            · rw [hmade] at h
              cases h
              rw [hadmits] at h'
              cases h'
      · rename_i fault hmade
        constructor
        · rintro ⟨⟩
        · rintro ⟨_, ⟨_, _, h⟩ | ⟨_, _, h, _⟩, _⟩
          · exact absurd (h hneeds.1) hneeds.2
          · rw [hmade] at h
            cases h
    · rename_i hneeds
      rw [hlast]
      simp only [Bool.and_eq_true, bne_iff_ne, not_and, not_not] at hneeds
      constructor
      · rintro ⟨rfl, h⟩
        exact ⟨store, .inl ⟨rfl, rfl, hneeds⟩, h⟩
      · rintro ⟨_, ⟨rfl, rfl, _⟩ | ⟨h, h', _⟩, hrest⟩
        · exact ⟨rfl, hrest⟩
        · exact absurd (hneeds h) h'

/-- Types that instantiation and merging look through before they come to a
former. -/
def detour : Ty → Nat
  | .var .. => 1
  | .tuple _ => 1
  | _ => 0

theorem detour_le_one (type : Ty) : type.detour ≤ 1 := by
  cases type <;> simp [detour]

variable {env : TypeEnv} {store : Store} {depth : Nat} {seen : List String}

theorem exists_of_instantiateTo_con {head : TyCon} {arguments : List Ty} {instantiated : Ty}
    (hregular : ((env.definition? head).all fun info => !info.isAbbreviation) = true)
    (h : instantiateTo (depth + 1) env seen store (con head arguments) = .ok instantiated) :
    ∃ hidden results, arguments.mapM (instantiateTo depth env seen store) = .ok results ∧
        instantiated = con { head with hidden } results ∧
        env.takes head arguments.length = true := by
  rw [instantiateTo] at h
  obtain ⟨results, hmap, hrest⟩ := bind_eq_ok h
  rw [← length_of_mapM hmap, TypeEnv.takes]
  cases hdefinition : env.definition? head with
  | none =>
    rw [hdefinition] at hrest
    cases hrest
    exact ⟨head.hidden, results, hmap, rfl, rfl⟩
  | some info =>
    simp only [hdefinition, Option.all_some, Bool.not_eq_true',
      TypeInfo.isAbbreviation, Option.isSome_eq_false_iff,
      Option.isNone_iff_eq_none] at hregular
    simp only [hdefinition, hregular] at hrest
    split at hrest
    · cases hrest
    · rename_i harity
      cases hrest
      exact ⟨_, results, hmap, rfl, by simp [TypeInfo.isAbbreviation, hregular, not_not.mp harity]⟩

end Sml.Ty
