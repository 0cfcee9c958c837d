import Sml.Proofs.Growth
import Sml.Proofs.Supply

/-!
# Signatures and what they promise

A structure that matches a signature has all the values that the signature
specifies.  How general these are is checked by merging: the check lets every
value pass that is as general as specified, and beyond that some whose types
have variables that are not theirs.
-/

namespace Sml

open List Table Ty

/-! ## What matching leaves as it is -/

/-- Only names and numbers have been given out. -/
structure ElabState.Keeps (before after : ElabState) : Prop where
  store : after.store = before.store
  frames : after.tree.frames = before.tree.frames
  supply : before.supply.next ≤ after.supply.next
  shared : before.tree.Numbers after.tree

instance : IsPreorder ElabState ElabState.Keeps where
  refl _ := ⟨rfl, rfl, le_rfl, refl _⟩
  trans _ _ _ hfirst hsecond :=
    ⟨hsecond.store.trans hfirst.store, hsecond.frames.trans hfirst.frames,
      hfirst.supply.trans hsecond.supply, IsTrans.trans _ _ _ hfirst.shared hsecond.shared⟩

variable {tree tree' : ScopeTree}
variable {specified implemented : Ty}

theorem ScopeTree.typeEnv_congr (h : tree'.frames = tree.frames) (scope : Scope) :
    tree'.typeEnv scope = tree.typeEnv scope := by
  have hfind {α : Type} (find : Frame → Option α) :
      tree'.find? 0 find scope = tree.find? 0 find scope :=
    find?_eq_of_frames (fun number _ => by rw [frame, h, frame]) find
  unfold typeEnv staticType? staticValue? staticStructure? assumption?
  simp only [hfind]

namespace Elab

theorem advances_freshNameLike (name : String) : Advances ElabState.Keeps (freshNameLike name) :=
  .modifyGet fun _ => ⟨rfl, rfl, Nat.le_succ _, refl _⟩

theorem advances_fresh : Advances ElabState.Keeps fresh :=
  .bind (.modifyGet fun _ => ⟨rfl, rfl, Nat.le_succ _, refl _⟩) fun _ => .pure _

theorem advances_newTypeId (name : String) : Advances ElabState.Keeps (newTypeId name) :=
  .modifyGet fun state => ⟨rfl, rfl, le_rfl, state.tree.numbers_newTypeId name⟩

theorem advances_instantiateScheme {R : ElabState → ElabState → Prop}
    [IsPreorder ElabState R] (h : ∀ name, Advances R (freshNameLike name))
    (scheme : Ty) : Advances R (instantiateScheme scheme) := by
  rw [instantiateScheme]
  split
  · exact .pure _
  · refine .bind (.mapM fun binder _ => ?_) fun _ => .pure _
    exact .ite (.pure _) (.bind (h _) fun _ => .pure _)

/-! ## New variables for bound ones -/

def renewed {β : Type} (make : Binder → String → β) (binder : Binder) : Elab β := do
  return make binder (← freshNameLike binder.name)

theorem exists_mapM_renewed {β : Type} (make : Binder → String → β)
    (binders : List Binder) (state : ElabState) :
    ∃ names state', names.length = binders.length ∧
      binders.mapM (renewed make) state =
        .ok ((binders.zip names).map fun pair => make pair.1 pair.2) state' ∧
      (∀ pair ∈ binders.zip names, isEqualityName pair.2 = isEqualityName pair.1.name) ∧
      Issued state.supply.next state'.supply.next names ∧ state.Keeps state' := by
  induction binders generalizing state with
  | nil => exact ⟨[], state, rfl, rfl, by simp, .nil _, refl _⟩
  | cons binder binders ih =>
    obtain ⟨names, state', hlength, hrun, hkinds, hissued, hkeeps⟩ :=
      ih { state with supply := (state.supply.freshLike binder.name).2 }
    refine ⟨(state.supply.freshLike binder.name).1 :: names, state', by simp [hlength], ?_,
      forall_mem_cons.mpr ⟨NameSupply.isEqualityName_freshLike _ _, hkinds⟩,
      (issued_freshLike state.supply binder.name).append hissued (Nat.le_succ _) hkeeps.supply,
      hkeeps.store, hkeeps.frames, (Nat.le_succ _).trans hkeeps.supply, hkeeps.shared⟩
    rw [mapM_cons]
    exact (bind_apply_of_ok (rfl : renewed make binder state = .ok _ _)).trans
      (bind_apply_of_ok hrun)

theorem instantiateScheme_eq {scheme : Ty}
    (hfree : ∀ binder ∈ scheme.unquantify.1, binder.free = false)
    (hbody : scheme.unquantify.2.isQuantifierFree = true) :
    instantiateScheme scheme = do
      let types ← scheme.unquantify.1.mapM (renewed fun binder new =>
        (binder.name, var new binder.domain false))
      return scheme.unquantify.2.substitute (ofList types) := by
  rw [instantiateScheme]
  split
  · rename_i body hscheme
    have hself := eq_of_unquantify_nil hscheme
    rw [hscheme] at hbody ⊢
    change _ = pure (body.substitute [])
    rw [hself, substitute_eq_mapVariables hbody]
    exact congrArg _ (mapVariables_var body).symm
  · rename_i binders body _ hscheme
    rw [hscheme] at hfree ⊢
    rw [mapM_congr_state]
    intro binder hbinder
    rw [hfree binder hbinder]
    rfl

section Zip

variable {α : Type} {binders : List Binder} {names : List String}
  (hlength : names.length = binders.length) {name : String}

include hlength

private theorem keys_zip (make : Binder → String → α) : ((binders.zip names).map fun pair =>
        (pair.1.name, make pair.1 pair.2)).map (·.1) =
      binders.map Binder.name := by
  calc _ = ((binders.zip names).map Prod.fst).map Binder.name := by
        rw [map_map, map_map]
        rfl
    _ = binders.map Binder.name := by
        rw [map_fst_zip (by omega)]

theorem get?_zip (make : Binder → String → α) (h : name ∈ binders.map Binder.name) :
    ∃ pair ∈ binders.zip names, Table.get? (ofList ((binders.zip names).map fun pair =>
        (pair.1.name, make pair.1 pair.2))) name = some (make pair.1 pair.2) := by
  have hkeys : name ∈ Table.keys (ofList ((binders.zip names).map fun pair =>
        (pair.1.name, make pair.1 pair.2))) := by
    rwa [mem_keys_ofList, keys_zip hlength]
  rw [← contains_iff, Table.contains, Option.isSome_iff_exists] at hkeys
  obtain ⟨value, hvalue⟩ := hkeys
  have hmem := mem_of_mem_ofList (mem_of_get? hvalue)
  obtain ⟨pair, hpair, heq⟩ := mem_map.mp hmem
  cases heq
  exact ⟨pair, hpair, hvalue⟩

theorem get?_zip_eq_none (make : Binder → String → α) (h : name ∉ binders.map Binder.name) :
    Table.get? (ofList ((binders.zip names).map fun pair =>
      (pair.1.name, make pair.1 pair.2))) name = none := by
  rwa [get?_eq_none_iff, mem_keys_ofList, keys_zip hlength]

end Zip

theorem exists_origin {pairs : List (Binder × String)} (h : (pairs.map Prod.snd).Nodup) :
    ∃ origin : String → String, ∀ pair ∈ pairs, origin pair.2 = pair.1.name := by
  induction pairs with
  | nil => exact ⟨id, by simp⟩
  | cons pair pairs ih =>
    rw [map_cons, nodup_cons] at h
    obtain ⟨origin, horigin⟩ := ih h.2
    refine ⟨Function.update origin pair.2 pair.1.name, forall_mem_cons.mpr
      ⟨Function.update_self .., fun other hother => ?_⟩⟩
    rw [Function.update_of_ne, horigin other hother]
    intro heq
    exact h.1 (heq ▸ mem_map_of_mem hother)

section Match

variable (scope : Scope) (span : Span)

theorem advances_matchValue (name : String) (specified implemented : Ty) : Advances ElabState.Keeps
      (matchValue scope span name specified implemented) := by
  rw [matchValue]
  refine .bind (.mapM fun binder _ => ?_) fun _ => ?_
  · exact .bind (advances_freshNameLike _) fun _ => .pure _
  · refine .bind (advances_instantiateScheme advances_freshNameLike _) fun _ =>
      .bind .get fun _ => ?_
    dsimp only
    split
    · exact .throw _
    · exact .throw _
    · split
      · exact .pure _
      · exact .throw _
      · exact .throw _

variable {scope span}

theorem renewed_zip {standIns names : List String}
    (hstandIns : standIns.length = specified.unquantify.1.length)
    (hnames : names.length = implemented.unquantify.1.length) (hnodup : (standIns ++ names).Nodup)
    (hkinds : ∀ pair ∈ specified.unquantify.1.zip standIns ++ implemented.unquantify.1.zip names,
      isEqualityName pair.2 = isEqualityName pair.1.name) :
    Renewed (standIns ++ names) implemented specified
      (ofList ((implemented.unquantify.1.zip names).map fun pair =>
        (pair.1.name, var pair.2 pair.1.domain false)))
      (ofList ((specified.unquantify.1.zip standIns).map fun pair =>
        (pair.1.name, pair.2))) := by
  refine ⟨fun name hname => ?_, fun name hname => get?_zip_eq_none hnames
    (fun binder new => var new binder.domain false) hname, fun name hname => ?_,
    fun entry hentry => ?_, fun entry hentry => ?_, ordered_ofList _, ?_⟩
  · obtain ⟨pair, hpair, hget⟩ := get?_zip hnames
      (fun binder new => var new binder.domain false) hname
    exact ⟨pair.2, mem_append_right _ (of_mem_zip hpair).2, pair.1, (of_mem_zip hpair).1, hget⟩
  · obtain ⟨pair, _, hget⟩ := get?_zip hstandIns (fun _ new => new) hname
    exact ⟨pair.2, hget⟩
  · obtain ⟨pair, hpair, rfl⟩ := mem_map.mp (mem_of_mem_ofList hentry)
    exact mem_map_of_mem (of_mem_zip hpair).1
  · obtain ⟨pair, hpair, rfl⟩ := mem_map.mp (mem_of_mem_ofList hentry)
    exact mem_append_left _ (of_mem_zip hpair).2
  · rw [← map_snd_zip hstandIns.le, ← map_snd_zip hnames.le, ← map_append] at hnodup
    obtain ⟨origin, horigin⟩ := exists_origin hnodup
    refine ⟨origin, fun entry hentry => ?_, fun name new domain free hget => ?_⟩
    · obtain ⟨pair, hpair, rfl⟩ := mem_map.mp (mem_of_mem_ofList hentry)
      have hmem := mem_append_left (implemented.unquantify.1.zip names) hpair
      exact ⟨horigin pair hmem, hkinds pair hmem⟩
    · obtain ⟨pair, hpair, heq⟩ := mem_map.mp (mem_of_mem_ofList (mem_of_get? hget))
      cases heq
      have hmem := mem_append_right (specified.unquantify.1.zip standIns) hpair
      exact ⟨horigin pair hmem, hkinds pair hmem⟩

/-- What the check of a value comes down to, with new variables for the bound
ones of both schemes. -/
theorem exists_renewed_matchValue {name : String} {specified implemented : Ty} (state : ElabState)
    (hfree : ∀ binder ∈ implemented.unquantify.1, binder.free = false)
    (hbody : implemented.unquantify.2.isQuantifierFree = true) :
    ∃ names instances standIns last, Issued state.supply.next last names ∧
      Renewed names implemented specified instances standIns ∧
      (succeeds (matchValue scope span name specified implemented) state = true ↔
        ∃ merged store, merge (state.tree.typeEnv scope) state.store
            (specified.unquantify.2.rename standIns)
            (implemented.unquantify.2.substitute instances) = .ok (merged, store) ∧
          areRigid (state.tree.typeEnv scope) store [] standIns = .ok true) := by
  obtain ⟨standIns, middle, hstandIns, hrigid, hkindsRigid, hissuedRigid, hkeepsRigid⟩ :=
    exists_mapM_renewed (fun binder new => (binder.name, new)) specified.unquantify.1 state
  obtain ⟨names, last, hnames, hfresh, hkinds, hissued, hkeeps⟩ := exists_mapM_renewed
    (fun binder new => (binder.name, var new binder.domain false)) implemented.unquantify.1 middle
  have hall := hissuedRigid.append hissued hkeepsRigid.supply hkeeps.supply
  refine ⟨standIns ++ names, _, _, _, hall, renewed_zip hstandIns hnames hall.nodup
    (forall_mem_append.mpr ⟨hkindsRigid, hkinds⟩), ?_⟩
  have hactual := congrFun (instantiateScheme_eq hfree hbody) middle
  rw [bind_apply_of_ok hfresh] at hactual
  have hkept := IsTrans.trans _ _ _ hkeepsRigid hkeeps
  have hrun : matchValue scope span name specified implemented state = _ :=
    (bind_apply_of_ok hrigid).trans (bind_apply_of_ok hactual)
  rw [succeeds, hrun, get_bind_apply]
  simp only [hkept.store, ScopeTree.typeEnv_congr hkept.frames]
  generalize merge _ _ _ _ = outcome
  rcases outcome with (mismatch | fault) | ⟨merged, store⟩
  · constructor
    · intro h
      cases h
    · rintro ⟨_, _, ⟨⟩, _⟩
  · constructor
    · intro h
      cases h
    · rintro ⟨_, _, ⟨⟩, _⟩
  · simp only
    generalize hstays : areRigid _ store _ _ = answer
    constructor
    · intro h
      refine ⟨merged, store, rfl, ?_⟩
      rcases answer with what | _ | _
      · cases h
      · cases h
      · exact hstays
    · rintro ⟨_, _, ⟨⟩, hrigid⟩
      rw [← hstays, hrigid]
      rfl

/-- Of the values that pass the check, those are general enough whose other
variables are settled. -/
theorem atLeastAsGeneral_iff_of_matchValue {name : String} {state state' : ElabState}
    (hacyclic : state.store.Acyclic) (hfresh : state.store.IsFreshFrom state.supply)
    (himplemented : implemented.IsRegularScheme (state.tree.typeEnv scope) state.store)
    (hspecified : specified.IsClosedScheme (state.tree.typeEnv scope))
    (h : matchValue scope span name specified implemented state = .ok () state') :
    AtLeastAsGeneral (state.tree.typeEnv scope) state.store implemented specified ↔
      implemented.IsSettled (state.tree.typeEnv scope) state.store := by
  constructor
  · intro hgeneral
    exact hgeneral.isSettled hacyclic himplemented hspecified.body
  · intro hsettled
    obtain ⟨names, instances, standIns, last, hissued, hrenewed, hiff⟩ :=
      @exists_renewed_matchValue scope span name specified implemented state himplemented.binders
        (isQuantifierFree_of_isIn himplemented.body)
    obtain ⟨merged, store, hmerge, hrigid⟩ := hiff.mp (by rw [succeeds, h])
    exact hrenewed.atLeastAsGeneral hacyclic himplemented hsettled hspecified
      (hissued.isFresh hfresh) hmerge hrigid

end Match

end Elab

end Sml
