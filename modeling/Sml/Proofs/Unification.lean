import Sml.Proofs.Unifier

/-!
# Merging is unification

On plain types and stores without cycles merging is a unification algorithm:
it ends, what it returns is a most general unifier, and it fails only if there
is no unifier.
-/

namespace Sml.Ty

open List Table Term

variable {stock : Stock} {env : TypeEnv} {store : Store} {σ : Subst}
variable {this that other instantiated : Ty} {result : Merging}

/-- A merge makes two types equal in the most general way, or nothing does. -/
def Unifies (stock : Stock) (env : TypeEnv) (σ : Subst) (left right : Ty) (result : Merging) :
    Prop :=
  Outcome stock env σ (fun θ => left.term.subst θ = right.term.subst θ)
    (Merged (.plain env) left.term) result

theorem Unifies.symm (h : Unifies stock env σ that this result) :
    Unifies stock env σ this that result :=
  h.congr (fun _ _ => eq_comm) fun _ _ _ heq hmerged => ⟨hmerged.1, hmerged.2.trans heq.symm⟩

section Variables

variable (hσ : stock.Holds env store σ)
include hσ

/-- An instance may take the place of a type. -/
theorem Unifies.of_instance {depth bound : Nat}
    (hdepth : stock.room ≤ depth) (hthat : stock.Fits env σ bound that) {next : Ty → Merging}
    (h : ∀ other, IsInstance (.plain env) σ that other → stock.Fits env σ bound other →
      Unifies stock env σ this other (next other)) : Unifies stock env σ this that
      ((instantiateTo depth env [] store that).mapError .fault >>= next) := by
  obtain ⟨other, hok, hother⟩ := hσ.instantiateTo hthat hdepth
  rw [hok]
  refine (h other hother (hthat.isInstance hσ.absorbs_self hother)).congr
    (fun θ hθ => ?_) fun _ _ _ _ hmerged => hmerged
  rw [hother.term, hθ.subst]

/-! ## Variables -/

structure Open (stock : Stock) (env : TypeEnv) (store : Store) (binder : Binder) : Prop where
  plain : (var binder.name binder.domain binder.free).isPlain env = true
  unbound : store.get? binder.name = none
  known : binder.name ∈ stock.names

private theorem mergeVariables_bind {survivor victim : Binder}
    (hsurvivor : Open stock env store survivor) (hvictim : Open stock env store victim)
    (hne : survivor.name ≠ victim.name) (free : Bool) :
    ∃ σ', stock.Holds env (store.bind victim.name (var survivor.name [] free) free) σ' ∧
      σ.MostGeneral σ' fun θ => θ survivor.name = θ victim.name := by
  have hvar : σ survivor.name = .var survivor.name := hσ.solves.unbound _ hsurvivor.unbound
  have hplain : (var survivor.name [] free).isPlain env = true :=
    (isPlain_var _ _ _).mpr ⟨rfl, ((isPlain_var _ _ _).mp hsurvivor.plain).2⟩
  obtain ⟨σ', hσ', hgeneral⟩ := hσ.bind hvictim.unbound hvictim.known hplain
    (hσ.within _ hsurvivor.known)
    (by
      rw [term_var, subst_var, hvar, vars_var, mem_singleton]
      exact hne.symm) free
  exact ⟨σ', hσ', hgeneral.congr fun θ _ => eq_comm⟩

theorem mergeVariables_outcome {this that : Binder}
    (hthis : Open stock env store this) (hthat : Open stock env store that) :
    Unifies stock env σ (var this.name this.domain this.free)
      (var that.name that.domain that.free) (mergeVariables store this that) := by
  obtain ⟨hthisDomain, hthisName⟩ := (isPlain_var _ _ _).mp hthis.plain
  obtain ⟨hthatDomain, hthatName⟩ := (isPlain_var _ _ _).mp hthat.plain
  have hplain : ∀ {name : String} (free : Bool),
      isEqualityName name = false → (var name [] free).isPlain env = true :=
    fun free hname => (isPlain_var _ _ _).mpr ⟨rfl, hname⟩
  simp only [mergeVariables, hthisDomain, hthatDomain, mergeDomain,
    isEmpty_nil, Bool.and_self, Bool.not_true, Bool.and_false,
    Bool.false_eq_true, if_false, if_true]
  by_cases heq : this.name = that.name
  · rw [if_pos heq]
    refine ⟨σ, hσ, ?_, hplain _ hthisName, rfl⟩
    simp [Subst.MostGeneral, heq]
  · rw [if_neg heq]
    by_cases hlt : this.name < that.name
    · simp only [if_pos hlt]
      obtain ⟨σ', hσ', hgeneral⟩ := mergeVariables_bind hσ hthis hthat heq (this.free || that.free)
      exact ⟨σ', hσ', hgeneral, hplain _ hthisName, rfl⟩
    · simp only [if_neg hlt]
      obtain ⟨σ', hσ', hgeneral⟩ := mergeVariables_bind hσ hthat hthis (Ne.symm heq)
          (this.free || that.free)
      exact ⟨σ', hσ', hgeneral.congr fun θ _ => eq_comm,
        hplain _ hthatName, hgeneral.meets hσ'.absorbs_self⟩

/-- A variable is bound unless it occurs in the type, and then no substitution
makes them equal. -/
theorem bindTo_outcome {binder : Binder}
    (hbinder : Open stock env store binder) (hvar : other.isVar = false)
    (hplain : other.isPlain env = true)
    (hwithin : stock.Within σ other.term) (hinstance : other.term.subst σ = other.term)
    (depth : Nat) : Unifies stock env σ (var binder.name binder.domain binder.free) other
      (bindTo (depth + 1) env store binder other) := by
  obtain ⟨former, hterm⟩ := exists_term_eq_node hvar
  obtain ⟨hdomain, hname⟩ := (isPlain_var _ _ _).mp hbinder.plain
  have hcontains := contains_variableDomains_false (isQuantifierFree_of_isIn hplain) binder.name
  rw [bindTo]
  by_cases hoccurs : binder.name ∈ other.term.vars
  · rw [if_pos (hcontains.mpr hoccurs)]
    refine .of_not (by simp) fun θ _ hequation => ?_
    rw [hterm] at hoccurs hequation
    exact subst_ne_of_occurs hoccurs hequation
  · rw [if_neg (mt hcontains.mp hoccurs)]
    simp only [hname, hdomain, Bool.false_and, Bool.false_eq_true, if_false,
      isEmpty_nil, Bool.not_true]
    have hboundTerm : (binder.mark other).term = other.term := term_mark _ binder
    have hboundPlain : (binder.mark other).isPlain env = true := isIn_mark hplain binder
    obtain ⟨σ', hσ', hgeneral⟩ := hσ.bind hbinder.unbound hbinder.known
      hboundPlain (hboundTerm ▸ hwithin)
      (by rw [hboundTerm, hinstance]; exact hoccurs) binder.free
    exact ⟨σ', hσ', hboundTerm ▸ hgeneral, hboundPlain, (hgeneral.meets hσ'.absorbs_self).symm⟩

end Variables

/-! ## Lists -/

/-- Enough is known of a merging function to merge the parts of types. -/
def MergesParts (stock : Stock) (env : TypeEnv) (bound : Nat)
    (merge : Store → Ty → Ty → Merging) : Prop :=
  ∀ store σ left right, stock.Holds env store σ →
    stock.Fits env σ bound left → stock.Fits env σ bound right →
    Unifies stock env σ left right (merge store left right)

section Parts

variable {bound : Nat} {merge : Store → Ty → Ty → Merging}

section

variable (hmerge : MergesParts stock env bound merge) (hσ : stock.Holds env store σ)
include hmerge hσ

theorem mergePairs_outcome {lefts rights : List Ty}
    (hlength : lefts.length = rights.length) (hlefts : ∀ left ∈ lefts, stock.Fits env σ bound left)
    (hrights : ∀ right ∈ rights, stock.Fits env σ bound right) :
    Outcome stock env σ (fun θ => (lefts.map fun left => left.term.subst θ) =
        rights.map fun right => right.term.subst θ)
      (MergedAll (.plain env) lefts) (mergePairs merge store (lefts.zip rights)) := by
  induction lefts generalizing rights store σ with
  | nil =>
    obtain rfl := length_eq_zero_iff.mp hlength.symm
    exact ⟨σ, hσ, by simp [Subst.MostGeneral], by simp, rfl⟩
  | cons left lefts ih =>
    obtain ⟨right, rights, rfl⟩ := exists_cons_of_length_eq_add_one hlength.symm
    have hfirst := hmerge store σ left right hσ (hlefts left (by simp)) (hrights right (by simp))
    rw [zip_cons_cons, mergePairs]
    apply hfirst.bind (fun θ => (lefts.map fun left => left.term.subst θ) =
        rights.map fun right => right.term.subst θ) (fun θ => by simp)
    intro merged store' σ' hσ' habsorbs hmerged
    have hrest := ih hσ' (Nat.succ.inj hlength)
      (fun left hleft => (hlefts left (by simp [hleft])).later hσ' habsorbs)
      fun right hright => (hrights right (by simp [hright])).later hσ' habsorbs
    apply hrest.map (f := (merged :: ·))
    intro σ'' others habsorbs' hothers
    have hlater := hmerged.later habsorbs'
    refine ⟨?_, ?_⟩
    · simpa using ⟨hlater.1, hothers.1⟩
    · rw [map_cons, hothers.2, hlater.2, map_cons]

theorem mergeCons_outcome {this that : TyCon} {thisArguments thatArguments : List Ty}
    (hthis : stock.Fits env σ (bound + 1) (con this thisArguments))
    (hthat : stock.Fits env σ (bound + 1) (con that thatArguments)) :
    Unifies stock env σ (con this thisArguments) (con that thatArguments)
      (mergeCons merge store this thisArguments that thatArguments) := by
  obtain ⟨htakes, _⟩ := (isIn_con _ _).mp hthis.plain
  rw [mergeCons]
  split
  · rename_i halike
    rw [Bool.and_eq_true, beq_iff_eq] at halike
    have hpairs := mergePairs_outcome hmerge hσ halike.2
      (fun _ hargument => hthis.part rfl hargument) fun _ hargument => hthat.part rfl hargument
    have hcon : Outcome stock env σ _ (Merged (.plain env) (con this thisArguments).term) _ :=
      hpairs.map (f := con { this with hidden := this.hidden || that.hidden }) (by
          intro σ' merged _ hmerged
          refine ⟨(isIn_con _ _).mpr ⟨?_, hmerged.1⟩, ?_⟩
          · have hlength := congrArg List.length hmerged.2
            rw [length_map, length_map] at hlength
            rw [hlength]
            exact htakes
          · exact (con_subst_eq_iff _ _ _ _ _).mpr ⟨by simp [TyCon.same], hmerged.2⟩)
    apply hcon.congr
    · intro θ _
      rw [con_subst_eq_iff]
      simp [halike.1]
    · exact fun _ _ _ _ hmerged => hmerged
  · rename_i hunlike
    apply Outcome.of_not (by simp)
    intro θ _ hequation
    rw [con_subst_eq_iff] at hequation
    have hlength := congrArg List.length hequation.2
    rw [length_map, length_map] at hlength
    simp [hequation.1, hlength] at hunlike

/-! ## Fields -/

variable (instantiate : Store → Ty → Except TypeFault Ty) (disagree : MergeFault)

private theorem foldlM_mergeField_outcome (hdisagree : disagree ≠ .fault .endless)
    {this that found : List (String × Ty)} {done : List String}
    (hthis : ∀ field ∈ this, stock.Fits env σ bound field.2)
    (hthat : ∀ field ∈ that, stock.Fits env σ bound field.2)
    (hfound : Collected (.plain env) this done σ found) :
    Outcome stock env σ (fun θ => ∀ field ∈ that, ∃ own, get? this field.1 = some own ∧
        own.term.subst θ = field.2.term.subst θ)
      (Collected (.plain env) this ((keys that).reverse ++ done))
      (that.foldlM (fun found field =>
          match get? this field.1 with
          | some own => mergeField merge found own field
          | none => addField instantiate disagree true found field)
        (found, store)) := by
  induction that generalizing store σ found done with
  | nil => exact ⟨σ, hσ, by simp [Subst.MostGeneral], hfound⟩
  | cons field that ih =>
    rw [foldlM_cons]
    cases hown : get? this field.1 with
    | none =>
      apply Outcome.of_not hdisagree
      intro θ _ hfields
      obtain ⟨own, hsome, _⟩ := hfields field (by simp)
      rw [hown] at hsome
      cases hsome
    | some own =>
      have hfirst := hmerge store σ own field.2 hσ
        (hthis _ (mem_of_get? hown)) (hthat field (by simp))
      have hinserted : Outcome stock env σ _ (Collected (.plain env) this (field.1 :: done))
          (mergeField merge (found, store) own field) :=
        hfirst.map (f := insert found field.1) fun σ' merged habsorbs hmerged =>
            (hfound.later habsorbs).insert hown hmerged
      apply hinserted.bind (fun θ => ∀ field ∈ that, ∃ own, get? this field.1 = some own ∧
            own.term.subst θ = field.2.term.subst θ)
        (fun θ => by simp [hown])
      intro found' store' σ' hσ' habsorbs hfound'
      rw [Table.keys_cons, reverse_cons, append_assoc]
      exact ih hσ' (fun field hfield => (hthis field hfield).later hσ' habsorbs)
        (fun field hfield => (hthat field (by simp [hfield])).later hσ' habsorbs)
        hfound'

theorem mergeFields_outcome {this that : List (String × Ty)}
    (hthis : stock.Fits env σ (bound + 1) (record this true))
    (hthat : stock.Fits env σ (bound + 1) (record that true)) :
    Unifies stock env σ (record this true) (record that true)
      (mergeFields merge instantiate store this true that true) := by
  obtain ⟨_, hthisOrdered, _⟩ := (isIn_record _ _).mp hthis.plain
  obtain ⟨_, hthatOrdered, _⟩ := (isIn_record _ _).mp hthat.plain
  have hnothing : Collected (.plain env) this [] σ [] := ⟨ordered_nil, by simp, by simp⟩
  have hfields := foldlM_mergeField_outcome hmerge hσ instantiate
    (.mismatch ⟨.members, .record this true, .record that true⟩) (by simp)
    (fun _ hfield => hthis.part rfl (mem_map_of_mem hfield))
    (fun _ hfield => hthat.part rfl (mem_map_of_mem hfield)) hnothing
  rw [mergeFields]
  apply hfields.bind (fun _ => ∀ field ∈ this, field.1 ∈ keys that)
    fun θ => (record_subst_eq_iff θ hthisOrdered hthatOrdered).symm
  intro found store' σ' hσ' habsorbs hfound
  have hlabels : ∀ label, label ∈ keys found ↔ label ∈ keys that := by
    intro label
    rw [hfound.labels]
    simp
  rw [foldlM_addField]
  simp only [hlabels]
  split
  · rename_i hall
    refine ⟨σ', hσ', fun θ => (and_iff_left hall).symm, ?_⟩
    apply hfound.record hthisOrdered
    simpa using hall
  · rename_i hmissing
    exact .of_not (by simp) fun _ _ hall => hmissing hall

theorem mergeArrows_outcome
    {parameter result parameter' result' : Ty}
    (hthis : stock.Fits env σ (bound + 1) (arrow parameter result))
    (hthat : stock.Fits env σ (bound + 1) (arrow parameter' result')) :
    Unifies stock env σ (arrow parameter result) (arrow parameter' result') (do
      let (parameter, store) ← merge store parameter parameter'
      let (result, store) ← merge store result result'
      return (arrow parameter result, store)) := by
  have hfirst := hmerge store σ parameter parameter' hσ (hthis.part rfl (by simp [components]))
    (hthat.part rfl (by simp [components]))
  apply hfirst.bind (fun θ => result.term.subst θ = result'.term.subst θ) (fun θ => by simp)
  intro merged store' σ' hσ' habsorbs hmerged
  have hsecond := hmerge store' σ' result result' hσ'
    ((hthis.part rfl (by simp [components])).later hσ' habsorbs)
    ((hthat.part rfl (by simp [components])).later hσ' habsorbs)
  apply hsecond.map (f := arrow merged)
  intro σ'' mergedResult habsorbs' hmergedResult
  have hlater := hmerged.later habsorbs'
  refine ⟨(isIn_arrow _ _).mpr ⟨hlater.1, hmergedResult.1⟩, ?_⟩
  simp [hlater.2, hmergedResult.2]

end

end Parts

/-! ## The recursion -/

variable {type : Ty}

theorem isVar_of_ne (h : ∀ name domain free, type = var name domain free → False) :
    type.isVar = false := by
  cases type with
  | var => exact absurd rfl (h _ _ _)
  | _ => rfl

theorem IsInstance.shape (h : IsInstance (.plain env) σ type instantiated)
    (hvar : ∀ name domain free, type = var name domain free → False) :
    (∃ fields, instantiated = record fields true) ∨
      (∃ parameter result, instantiated = arrow parameter result) ∨
      ∃ head arguments, instantiated = con head arguments := by
  obtain ⟨former, hterm⟩ := exists_term_eq_node (isVar_of_ne hvar)
  have hinstance := h.term
  rw [hterm, subst_node] at hinstance
  have hplain := h.isIn
  have hsimple := h.simple
  cases instantiated with
  | any | bind => simp at hplain
  | var => simp at hinstance
  | tuple => simp [isSimple, fold] at hsimple
  | record fields complete =>
    obtain ⟨rfl, _⟩ := (isIn_record _ _).mp hplain
    exact .inl ⟨fields, rfl⟩
  | arrow parameter result => exact .inr (.inl ⟨parameter, result, rfl⟩)
  | con head arguments => exact .inr (.inr ⟨head, arguments, rfl⟩)

theorem IsInstance.isOpen (hσ : stock.Holds env store σ) {bound : Nat}
    (htype : stock.Fits env σ bound type) (binder : Binder)
    (h : IsInstance (.plain env) σ type (var binder.name binder.domain binder.free)) :
    Open stock env store binder := by
  have hmem : binder.name ∈ (type.term.subst σ).vars := by
    rw [← h.term]
    simp
  refine ⟨h.isIn, ?_, htype.within.vars _ hmem⟩
  obtain ⟨inner, _, hinner⟩ := (mem_vars_subst _ _ _).mp hmem
  exact hσ.solves.unbound_of_mem_vars hσ.acyclic hinner

theorem detour_of_isSimple (hsimple : type.isSimple = true) (hvar : type.isVar = false) :
    type.detour = 0 := by
  cases type with
  | var => cases hvar
  | tuple => simp [isSimple, fold] at hsimple
  | _ => rfl

/-- A level takes at most four steps: through a tuple or a variable on the
first side, through a variable on the second side, and through the formers. -/
theorem mergeTo_outcome (depth bound : Nat) (hσ : stock.Holds env store σ)
    (hthis : stock.Fits env σ bound this) (hother : stock.Fits env σ bound other)
    (hdepth : 4 * bound + this.detour + 2 * other.isVar.toNat + stock.room + 1 ≤ depth) :
    Unifies stock env σ this other (mergeTo depth env store this other) := by
  induction depth generalizing bound store σ this other with
  | zero => omega
  | succ depth ih =>
    have hroom : stock.room ≤ depth := by omega
    have hparts : ∀ less, bound = less + 1 → MergesParts stock env less (mergeTo depth env) := by
      intro less hless store' σ' left right hσ' hleft hright
      apply ih less hσ' hleft hright
      have hdetour := left.detour_le_one
      have hturns := right.isVar.toNat_le
      omega
    unfold mergeTo
    split
    · exact absurd hthis.plain (by simp)
    · exact absurd hthis.plain (by simp)
    · have hmerged := ih bound hσ (hthis.of_term_eq (isIn_simplify hthis.plain)
        (term_simplify _)) hother (by
          rw [simplify_tuple]
          simp only [detour] at hdepth ⊢
          omega)
      rwa [Unifies, term_simplify] at hmerged
    · exact absurd hother.plain (by simp)
    · refine .symm (.of_instance hσ hroom hthis fun this hinstance hfits => .symm ?_)
      split
      · -- Not bound: bind it, or merge it with another variable.
        have hopen := hinstance.isOpen hσ hthis ⟨_, _, _⟩
        refine .of_instance hσ hroom hother fun that hthat hfits => ?_
        split
        · exact mergeVariables_outcome hσ hopen (hthat.isOpen hσ hother ⟨_, _, _⟩)
        · exact absurd hthat.isIn (by simp)
        · rename_i hvar _
          obtain ⟨less, rfl⟩ : ∃ less, depth = less + 1 :=
            ⟨depth - 1, by rw [Stock.room] at hroom; omega⟩
          exact bindTo_outcome hσ hopen (isVar_of_ne hvar) hthat.isIn hfits.within
            (by rw [hthat.term, hσ.absorbs_self.subst]) less
      · -- Bound to a type, which takes its place.
        rename_i hvar
        have hdetour := detour_of_isSimple hinstance.simple (isVar_of_ne hvar)
        simp only [isResolved_of_isIn hinstance.isIn, if_true]
        exact (ih bound hσ hfits hother (by simp only [detour] at hdepth; omega)).map (f := id)
          fun _ _ _ hmerged => hmerged
    · refine (ih bound hσ hother hthis ?_).symm
      simp only [detour, isVar, Bool.toNat_true, Bool.toNat_false] at hdepth ⊢
      omega
    · rename_i hvar
      obtain ⟨rfl, _⟩ := (isIn_record _ _).mp hthis.plain
      obtain ⟨less, rfl⟩ := hthis.exists_bound hσ rfl
      refine .of_instance hσ hroom hother fun that hthat hfits => ?_
      rcases hthat.shape hvar with ⟨others, rfl⟩ | ⟨_, _, rfl⟩ | ⟨_, _, rfl⟩
      · exact mergeFields_outcome (hparts less rfl) hσ _ hthis hfits
      · exact .of_not (by simp) fun θ _ heq => by simp at heq
      · exact .of_not (by simp) fun θ _ heq => by simp at heq
    · rename_i hvar
      obtain ⟨less, rfl⟩ := hthis.exists_bound hσ rfl
      refine .of_instance hσ hroom hother fun that hthat hfits => ?_
      rcases hthat.shape hvar with ⟨others, rfl⟩ | ⟨_, _, rfl⟩ | ⟨_, _, rfl⟩
      · exact .of_not (by simp) fun θ _ heq => by simp at heq
      · exact mergeArrows_outcome (hparts less rfl) hσ hthis hfits
      · exact .of_not (by simp) fun θ _ heq => by simp at heq
    · rename_i hvar
      obtain ⟨less, rfl⟩ := hthis.exists_bound hσ rfl
      refine .symm (.of_instance hσ hroom hthis fun this hinstance hthisFits => .symm ?_)
      obtain ⟨head, arguments, rfl, _⟩ := hinstance.exists_con
      refine .of_instance hσ hroom hother fun that hthat hfits => ?_
      rcases hthat.shape hvar with ⟨others, rfl⟩ | ⟨_, _, rfl⟩ | ⟨_, _, rfl⟩
      · exact .of_not (by simp) fun θ _ heq => by simp at heq
      · exact .of_not (by simp) fun θ _ heq => by simp at heq
      · exact mergeCons_outcome (hparts less rfl) hσ hthisFits hfits

theorem merge_outcome (hplain : store.IsPlain env) (hacyclic : store.Acyclic) (hσ : store.Solves σ)
    {left right : Ty} (hleft : left.isPlain env = true) (hright : right.isPlain env = true) :
    Unifies (.ofTypes store left right) env σ left right (merge env store left right) := by
  apply mergeTo_outcome _ _ (Stock.holds_ofTypes hacyclic hσ hplain)
    (Stock.fits_ofTypes hacyclic hσ hleft hright (.inl rfl))
    (Stock.fits_ofTypes hacyclic hσ hleft hright (.inr rfl))
  have hlength := Stock.length_ofTypes store left right
  have hdetour := left.detour_le_one
  have hturns := right.isVar.toNat_le
  rw [Stock.room, unfoldingRoom]
  omega

end Sml.Ty

namespace Sml

/-- The types make every bound variable the same as what it is bound to. -/
def Store.SatisfiedBy (store : Store) (types : String → Ty) : Prop :=
  ∀ name binding, store.get? name = some binding →
    (types name).same (binding.type.replace types) = true

namespace Ty

variable {env : TypeEnv} {store : Store} {σ : Subst} {types : String → Ty}

theorem same_replace_iff {left right : Ty} (hleft : left.isPlain env = true)
    (hright : right.isPlain env = true) (htypes : Definite types) :
    (left.replace types).same (right.replace types) = true ↔
      left.term.subst (fun name => (types name).term) =
        right.term.subst fun name => (types name).term := by
  rw [same_iff (isAnyFree_replace htypes (isAnyFree_of_isIn hleft))
    (isAnyFree_replace htypes (isAnyFree_of_isIn hright)), term_replace,
    term_replace]

theorem satisfiedBy_iff (hplain : store.IsPlain env) (hacyclic : store.Acyclic)
    (hσ : store.Solves σ) (htypes : Definite types) :
    store.SatisfiedBy types ↔ Subst.Absorbs (fun name => (types name).term) σ := by
  rw [hσ.absorbs_iff hacyclic]
  refine forall_congr' fun name => forall_congr' fun binding => forall_congr' fun hbinding => ?_
  rw [same_iff (htypes name) (isAnyFree_replace htypes
    (isAnyFree_of_isIn (hplain.bindings name binding hbinding))),
    term_replace]

/-- Merging two plain types ends.  If it succeeds, the new store makes them
equal and is satisfied by exactly those types that satisfied the old one and
make them equal.  If it fails, no types do. -/
theorem merge_mostGeneral (hplain : store.IsPlain env) (hacyclic : store.Acyclic) (left right : Ty)
    (hleft : left.isPlain env = true) (hright : right.isPlain env = true) :
    match merge env store left right with
    | .ok (merged, store') =>
      store'.IsPlain env ∧ store'.Acyclic ∧ (∃ leftInstance rightInstance mergedInstance,
          instantiate env store' left = .ok leftInstance ∧
          instantiate env store' right = .ok rightInstance ∧
          instantiate env store' merged = .ok mergedInstance ∧
          leftInstance.same rightInstance = true ∧
          leftInstance.same mergedInstance = true) ∧
        ∀ types, Definite types → (store'.SatisfiedBy types ↔ store.SatisfiedBy types ∧
            (left.replace types).same (right.replace types) = true)
    | .error fault =>
      fault ≠ .fault .endless ∧ ∀ types, Definite types → store.SatisfiedBy types →
          (left.replace types).same (right.replace types) = false := by
  obtain ⟨σ, hσ⟩ := hacyclic.exists_solves
  have houtcome := merge_outcome hplain hacyclic hσ hleft hright
  cases hmerge : merge env store left right with
  | error fault =>
    rw [hmerge] at houtcome
    refine ⟨houtcome.1, fun types htypes hsatisfied => ?_⟩
    rw [satisfiedBy_iff hplain hacyclic hσ htypes] at hsatisfied
    rw [Bool.eq_false_iff, ne_eq, same_replace_iff hleft hright htypes]
    exact houtcome.2 _ hsatisfied
  | ok pair =>
    obtain ⟨merged, store'⟩ := pair
    rw [hmerge] at houtcome
    obtain ⟨σ', hσ', hgeneral, hmerged, hmergedTerm⟩ := houtcome
    refine ⟨hσ'.plain, hσ'.acyclic, ?_, fun types htypes => ?_⟩
    · obtain ⟨leftInstance, hleftOk, hleftInstance⟩ :=
        instantiate_of_acyclic hσ'.plain hσ'.acyclic hσ'.solves hleft
      obtain ⟨rightInstance, hrightOk, hrightInstance⟩ :=
        instantiate_of_acyclic hσ'.plain hσ'.acyclic hσ'.solves hright
      obtain ⟨mergedInstance, hmergedOk, hmergedInstance⟩ :=
        instantiate_of_acyclic hσ'.plain hσ'.acyclic hσ'.solves hmerged
      refine ⟨_, _, _, hleftOk, hrightOk, hmergedOk, ?_, ?_⟩
      · rw [same_iff (isAnyFree_of_isIn hleftInstance.isIn)
          (isAnyFree_of_isIn hrightInstance.isIn), hleftInstance.term,
          hrightInstance.term]
        exact hgeneral.meets hσ'.absorbs_self
      · rw [same_iff (isAnyFree_of_isIn hleftInstance.isIn)
          (isAnyFree_of_isIn hmergedInstance.isIn), hleftInstance.term,
          hmergedInstance.term, hmergedTerm]
    · rw [satisfiedBy_iff hσ'.plain hσ'.acyclic hσ'.solves htypes,
        satisfiedBy_iff hplain hacyclic hσ htypes,
        same_replace_iff hleft hright htypes]
      exact hgeneral _

def listEnv : TypeEnv where
  type? path name :=
    if path = [] ∧ name = "list" then
      some { type := list (plain "'a"), arity := 1, equality := true }
    else none
  value? _ _ := none
  assumed? _ _ := none

def listStore : Store where
  bindings := [("'b", ⟨list (plain "'a"), false⟩)]

/-- The argument makes `'a` an integer by way of `'b`, and the result makes
`'c` a pair of both. -/
theorem merge_mostGeneral_list : listStore.IsPlain listEnv ∧ listStore.Acyclic ∧ ∃ merged store',
        merge listEnv listStore (arrow (plain "'b") (plain "'c"))
            (arrow (list int) (tuple [plain "'a", plain "'b"])) =
          .ok (merged, store') ∧
        store'.Acyclic ∧
        ∀ types, Definite types → (store'.SatisfiedBy types ↔ listStore.SatisfiedBy types ∧
            ((arrow (plain "'b") (plain "'c")).replace types).same ((arrow (list int)
                (tuple [plain "'a", plain "'b"])).replace types) = true) := by
  have hplain : listStore.IsPlain listEnv :=
    ⟨fun _ _ hbinding => (by decide +kernel : ∀ entry ∈ listStore.bindings,
      entry.2.type.isPlain listEnv = true) _ (Table.mem_of_get? hbinding), rfl⟩
  have hacyclic : listStore.Acyclic :=
    (Store.Ranked.of_bindings (fun name => if name = "'b" then 1 else 0) (by decide)).acyclic
  have hresult := merge_mostGeneral hplain hacyclic (arrow (plain "'b") (plain "'c"))
    (arrow (list int) (tuple [plain "'a", plain "'b"]))
    (by decide +kernel) (by decide +kernel)
  have hok : (merge listEnv listStore (arrow (plain "'b") (plain "'c")) (arrow (list int)
        (tuple [plain "'a", plain "'b"]))).toOption.isSome = true := by
    decide +kernel
  refine ⟨hplain, hacyclic, ?_⟩
  split at hresult
  · rename_i merged store' hmerge
    exact ⟨merged, store', hmerge, hresult.2.1, hresult.2.2.2⟩
  · rename_i fault hmerge
    rw [hmerge] at hok
    cases hok

/-- On the right a record that is not known in full is copied for each
occurrence of its variable. -/
theorem merge_ne_swapped :
    let store : Store := { bindings := [("'v", ⟨.record [("x", int)] false, false⟩)] }
    let rows := arrow (plain "'v") (plain "'v")
    let pair := arrow (.record [("x", int), ("y", int)] true)
      (.record [("x", int), ("z", int)] true)
    (merge listEnv store pair rows).isOk = true ∧ (merge listEnv store rows pair).isOk = false := by
  decide +kernel

end Ty

end Sml
