import Sml.Proofs.Resolution

/-!
# What types stand for in stores without cycles

Where bindings never lead back, every type with the right numbers of arguments
stands for something.  It is made of the same declared types, its term is the
solution of the store put for the variables, and instantiation finds it.
-/

namespace Sml

open List Ty

variable {type result : Ty} {fragment : Fragment} {arguments : List Ty}

namespace Store

variable {env : TypeEnv} {store : Store} {anys : Prop}
  {heads : TyCon → Nat → Prop} {occurs : String → List Ty → Prop}

/-- What holds throughout a type and the types that it leads to gives what
holds throughout what the type stands for. -/
theorem Resolves.throughout {check other : Ty → Prop} {known : String → Prop}
    (h : store.Resolves env type result) (htype : type.Throughout check)
    (hvars : ∀ name ∈ type.term.vars, known name)
    (hbindings : ∀ {name binding}, known name → store.get? name = some binding →
      binding.type.Throughout check ∧ ∀ other ∈ binding.type.term.vars, known other)
    (hvar : ∀ {name domain free}, store.get? name = none → check (.var name domain free) →
      other (.var name (store.narrow name domain) free))
    (hnode : ∀ {type} (f : Ty → Ty), type.isFormed env = true → check type →
      other ((type.shownHead env).mapComponents f))
    (hsimplify : ∀ type, check type → check (type.untupled.mapComponents Ty.simplify)) :
    result.Throughout other := by
  induction h using Resolves.induct_node with
  | unbound domain free hname =>
    cases htype with
    | intro hcheck _ => exact .intro (hvar hname hcheck) nofun
  | bound domain free hbinding _ ih =>
    obtain ⟨hbound, hclosed⟩ := hbindings (hvars _ (by simp)) hbinding
    exact ih hbound hclosed
  | node f hform _ ih =>
    cases htype with
    | intro hcheck hparts =>
      refine .intro (hnode f hform hcheck) ?_
      rw [components_formed]
      refine forall_mem_map.mpr fun part hpart =>
        ih part hpart (hparts part hpart) fun name hname => hvars name ?_
      exact (Ty.mem_vars_iff (isVar_of_isFormed hform) name).mpr ⟨part, hpart, hname⟩
  | tuple _ ih => exact ih (htype.simplify hsimplify) (by rwa [term_simplify])

/-- What a type stands for is made of the same declared types, now with the
right number of arguments, and of unbound variables. -/
theorem Resolves.madeOf (h : store.Resolves env type result) (htype : type.MadeOf anys heads occurs)
    (hbindings : ∀ {name binding}, store.get? name = some binding →
      binding.type.MadeOf anys heads occurs)
    (hhidden : ∀ {head count} (hidden : Bool), heads head count → heads { head with hidden } count)
    {occurs' : String → List Ty → Prop} (hoccurs : ∀ {name domain}, store.get? name = none →
      occurs name domain → occurs' name (store.narrow name domain)) :
    result.MadeOf anys (fun head count => heads head count ∧
      env.takes head count = true) occurs' := by
  rw [madeOf_iff] at htype ⊢
  refine h.throughout htype (fun _ _ => trivial)
    (fun _ hbinding => ⟨(madeOf_iff _).mp (hbindings hbinding), fun _ _ => trivial⟩) hoccurs
    (fun {type} f hform h => ?_) fun type h => ?_
  · cases type with
    | con head arguments =>
      change _ ∧ env.takes head _ = true
      rw [length_map]
      exact ⟨hhidden _ h, hform⟩
    | var | tuple => cases hform
    | _ => exact h
  · cases type <;> simp_all [Makes, untupled, mapComponents]

/-- A type stands for something if its variables do, and so does its form
without tuples. -/
private theorem exists_resolves_of_vars
    (hheads : ∀ {head count}, heads head count → env.takes head count = true)
    (htype : type.MadeOf anys heads occurs)
    (hvars : ∀ name ∈ type.term.vars, ∀ domain free, ∃ result,
      store.Resolves env (.var name domain free) result) :
    (∃ result, store.Resolves env type result) ∧
      ∃ result, store.Resolves env type.simplify result := by
  rw [madeOf_iff] at htype
  induction htype with
  | @intro type hmakes _ ih =>
    cases hvar : type.isVar with
    | true =>
      obtain ⟨name, domain, free, rfl⟩ := exists_of_isVar hvar
      exact ⟨hvars _ (by simp) _ _, hvars _ (by simp) _ _⟩
    | false =>
      have ih := fun part hpart => ih part hpart fun name hname =>
        hvars name ((mem_vars_iff hvar name).mpr ⟨part, hpart, hname⟩)
      have hform : type.untupled.isFormed env = true := by
        cases type with
        | var => cases hvar
        | con head arguments => exact hheads hmakes
        | _ => rfl
      have hsimplified : ∃ result, store.Resolves env type.simplify result := by
        rw [simplify_eq]
        refine Resolves.exists_node (by rwa [isFormed_mapComponents]) ?_
        rw [components_mapComponents]
        exact forall_mem_map.mpr fun part hpart => (ih part (mem_of_mem_untupled hpart)).2
      refine ⟨?_, hsimplified⟩
      cases type with
      | tuple elements => exact hsimplified.imp fun _ => .tuple
      | _ => exact Resolves.exists_node hform fun part hpart => (ih part hpart).1

/-- Where bindings never lead back and declared types have the right number
of arguments, every type stands for something. -/
theorem Acyclic.exists_resolves (hacyclic : store.Acyclic)
    (hheads : ∀ {head count}, heads head count → env.takes head count = true)
    (hbindings : ∀ {name binding}, store.get? name = some binding →
      binding.type.MadeOf anys heads occurs) (htype : type.MadeOf anys heads occurs) :
    ∃ result, store.Resolves env type result := by
  obtain ⟨σ, hσ⟩ := hacyclic.exists_solves
  refine (exists_resolves_of_vars hheads htype fun name hname => ?_).1
  clear hname
  induction name using hσ.induct hacyclic with
  | unbound name hname => exact fun domain free => ⟨_, .unbound domain free hname⟩
  | bound name binding hbinding _ ih =>
    obtain ⟨⟨result, hresult⟩, _⟩ := exists_resolves_of_vars hheads (hbindings hbinding) ih
    exact fun domain free => ⟨result, .bound domain free hbinding hresult⟩

end Store

namespace Ty

/-- What instantiation makes of a type: the solution is put for its
variables, and no tuples are left. -/
structure IsInstance (fragment : Fragment) (σ : Subst) (type instantiated : Ty) : Prop where
  isIn : instantiated.isIn fragment = true
  simple : instantiated.isSimple = true
  term : instantiated.term = type.term.subst σ

theorem IsInstance.exists_con {σ : Subst} {head : TyCon} {instantiated : Ty}
    (h : IsInstance fragment σ (con head arguments) instantiated) :
    ∃ other others, instantiated = .con other others ∧ other.same head = true := by
  have hterm := h.term
  have hsimple := h.simple
  have hisIn := h.isIn
  rw [term_con, Term.subst_node] at hterm
  cases instantiated with
  | any | bind => simp at hisIn
  | var | record | arrow => simp at hterm
  | tuple => simp [isSimple, fold] at hsimple
  | con other others =>
    simp only [term_con, Term.node.injEq, Former.con.injEq] at hterm
    exact ⟨other, others, rfl, by simp [TyCon.same, hterm.1]⟩

end Ty

/-- Where the variables that a type leads to are bound to types of a fragment,
it stands for an instance. -/
theorem Store.Resolves.isInstance {env : TypeEnv} {store : Store} {known : String → Prop}
    (hbindings : ∀ {name binding}, known name →
      store.get? name = some binding → binding.type.isIn fragment = true ∧
        ∀ other ∈ binding.type.term.vars, known other)
    (hnarrow : ∀ {name domain}, fragment.allows name domain = true →
      fragment.allows name (store.narrow name domain) = true) {σ : Subst} (hσ : store.Solves σ)
    (h : store.Resolves env type result) (htype : type.isIn fragment = true)
    (hvars : ∀ name ∈ type.term.vars, known name) : Ty.IsInstance fragment σ type result := by
  have hresult : result.Throughout fun type =>
      type.Fits fragment ∧ type ≠ .any ∧ ∀ elements, type ≠ .tuple elements := by
    refine h.throughout ((isIn_iff _).mp htype) hvars (fun hknown hbinding => ?_)
      (fun _ h => ⟨hnarrow h, Ty.noConfusion, fun _ => Ty.noConfusion⟩)
      (fun {type} f hform h => ?_) fun type h => ?_
    · obtain ⟨hbound, hclosed⟩ := hbindings hknown hbinding
      exact ⟨(isIn_iff _).mp hbound, hclosed⟩
    · cases type <;>
        simp_all [Fits, isFormed, shownHead, mapComponents, Table.ordered_mapValues, TypeEnv.shown,
          fragment.takes_hidden]
    · cases type <;>
        simp_all [Fits, untupled, mapComponents, Table.ordered_mapValues, ordered_tupleFields]
  exact ⟨(isIn_iff _).mpr (hresult.mono fun _ h => h.1),
    (isSimple_iff _).mpr (hresult.mono fun _ h => h.2), h.term_eq hσ⟩

/-! ## Plain types -/

namespace Ty

variable {env : TypeEnv} {store : Store} {σ : Subst}
  (hplain : store.IsPlain env) (hacyclic : store.Acyclic)
  (hσ : store.Solves σ) {type : Ty} (htype : type.isPlain env = true)
include hplain hacyclic hσ htype

theorem exists_resolves_plain : ∃ result, store.Resolves env type result ∧
    IsInstance (.plain env) σ type result := by
  have hexists : ∃ result, store.Resolves env type result :=
    hacyclic.exists_resolves (fun htakes => htakes)
      (fun hbinding => madeOf_of_isIn (hplain.bindings _ _ hbinding))
      (madeOf_of_isIn htype)
  have hbindings : ∀ {name binding}, True → store.get? name = some binding →
      binding.type.isIn (.plain env) = true ∧ ∀ other ∈ binding.type.term.vars, True :=
    fun _ hbinding => ⟨hplain.bindings _ _ hbinding, fun _ _ => trivial⟩
  obtain ⟨result, hresult⟩ := hexists
  refine ⟨result, hresult, hresult.isInstance hbindings ?_ hσ htype fun _ _ => trivial⟩
  intro name domain hallows
  rwa [Store.narrow, Store.domain?, hplain.domains]

/-- In a plain store without cycles, instantiation of plain types never runs
out of depth and never fails. -/
theorem instantiateTo_of_acyclic {depth : Nat}
    (hdepth : 2 * (type.term.subst σ).height + store.boundNames.card + 2 ≤ depth) :
    ∃ instantiated, instantiateTo depth env [] store type = .ok instantiated ∧
        IsInstance (.plain env) σ type instantiated := by
  obtain ⟨result, hresult, hinstance⟩ := exists_resolves_plain hplain hacyclic hσ htype
  obtain ⟨rank, hranked, hle⟩ := hacyclic.exists_ranked
  have hdetour := type.detour_le_one
  rw [← hinstance.term] at hdepth
  exact ⟨result, hresult.instantiateTo_of_height hranked
    (fun name _ => Nat.lt_succ_of_le (hle name)) (by simp) (by omega),
    hinstance⟩

theorem instantiate_of_acyclic : ∃ instantiated, instantiate env store type = .ok instantiated ∧
      IsInstance (.plain env) σ type instantiated := by
  obtain ⟨result, hresult, hinstance⟩ := exists_resolves_plain hplain hacyclic hσ htype
  exact ⟨result, hresult.instantiate_eq, hinstance⟩

end Ty

end Sml
