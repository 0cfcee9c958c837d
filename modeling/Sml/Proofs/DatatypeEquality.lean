import Sml.Proofs.Environments
import Sml.Session.Interpret

/-!
# Equality of a group of datatypes

The members of a group that admit equality are the greatest list under which
each member that has equality has it on account of its constructors.  The
list is found by starting from all members and dropping those that fail; each
round that changes anything drops one, so there are no more rounds than
members.  There is no list if the test of an argument comes to no end.
-/

namespace Sml.GroupMember

open List Option

/-- Every member that admits equality according to the list does so by the
arguments of its constructors, the members being assumed to admit equality as
the list says. -/
def Justified (env : TypeEnv) (group : List GroupMember) (equality : List Bool) : Prop :=
  List.Forall₂ (fun admits member => admits = true → ∀ argument ∈ member.arguments,
      argument.asEqualityType.admitsEquality (assume env group equality) = some true)
    equality group

/-- The members of which all constructor arguments admit equality. -/
def admitting (env : TypeEnv) (group : List GroupMember) : List Bool :=
  group.map fun member => member.argumentsAdmit env == some true

abbrev Below (first second : List Bool) : Prop := List.Forall₂ (· ≤ ·) first second

variable {env : TypeEnv} {group : List GroupMember} {first second : List Bool}

theorem below_refl (equality : List Bool) : Below equality equality := forall₂_refl _

section Comparison

variable (h : Below first second)
include h

theorem below_trans {third : List Bool} (h' : Below second third) : Below first third := by
  induction h generalizing third with
  | nil => exact h'
  | cons hle _ ih =>
    cases h' with
    | cons hle' h' => exact .cons (hle.trans hle') (ih h')

theorem eq_or_count_lt : first = second ∨ first.count true < second.count true := by
  induction h with
  | nil => exact .inl rfl
  | @cons admits kept first second hle _ ih =>
    rw [Bool.le_iff_imp] at hle
    rcases ih with rfl | hlt
    · cases admits <;> cases kept <;> simp at hle ⊢
    · cases admits <;> cases kept <;> simp [hlt] at hle ⊢
      omega

/-! ## One round -/

theorem trusts_assume {A : Prop} {H : TyCon → Nat → Prop} {other : TypeEnv}
    (htrusts : env.Trusts A H other) :
    (assume env group first).Trusts A H (assume other group second) := by
  induction h generalizing group env other with
  | nil => simpa [assume] using htrusts
  | cons hle h ih =>
    cases group with
    | nil => exact htrusts
    | cons member group => exact ih (htrusts.assume member.head.name member.head.id hle)

theorem argumentsAdmit_mono {member : GroupMember}
    (hadmits : member.argumentsAdmit (assume env group first) = some true) :
    member.argumentsAdmit (assume env group second) = some true := by
  rw [argumentsAdmit, Ty.allM_eq_some_true] at hadmits ⊢
  intro argument hargument
  have hclosed : env.Closed True fun _ _ => True :=
    ⟨fun _ _ => trivial, fun _ _ _ => ⟨trivial, fun _ _ _ _ => trivial,
      fun _ _ => trivial⟩, fun _ _ _ _ _ _ => trivial⟩
  exact Ty.admitsEquality_mono (trusts_assume h (.refl hclosed))
    (fun _ _ => trivial) (hadmits argument hargument)

theorem below_admitting : Below (admitting (assume env group first) group)
      (admitting (assume env group second) group) := by
  rw [Below, admitting, admitting, forall₂_map_left_iff, forall₂_map_right_iff, forall₂_same]
  intro member _
  rw [Bool.le_iff_imp, beq_iff_eq, beq_iff_eq]
  exact argumentsAdmit_mono h

end Comparison

theorem justified_iff {equality : List Bool} : Justified env group equality ↔
      Below equality (admitting (assume env group equality) group) := by
  simp [Justified, Below, admitting, argumentsAdmit, Ty.allM_eq_some_true, Bool.le_iff_imp]

theorem below_refine_iff {lower refined : List Bool} (hlength : second.length = group.length)
    (h : refine env group second = some refined) :
    Below lower refined ↔ Below lower second ∧
      Below lower (admitting (assume env group second) group) := by
  unfold refine at h
  revert h
  generalize assume env group second = assumed
  dsimp only
  intro h
  induction group generalizing second lower refined with
  | nil =>
    rw [length_nil, length_eq_zero_iff] at hlength
    subst hlength
    cases h
    simp [admitting]
  | cons member group ih =>
    cases second with
    | nil => cases hlength
    | cons admits second =>
      simp only [zip_cons_cons, mapM_cons, Option.bind_eq_bind, Option.bind_eq_some_iff,
        Option.pure_def, Option.some.injEq] at h
      obtain ⟨kept, hkept, rest, hrest, rfl⟩ := h
      cases lower with
      | nil => simp
      | cons least lower =>
        have hboth : least ≤ kept ↔
            least ≤ admits ∧ least ≤ (member.argumentsAdmit assumed == some true) := by
          cases admits <;> cases kept <;> cases least <;> simp_all
        have hlength := Nat.succ.inj hlength
        have hadmitting : admitting assumed (member :: group) =
            (member.argumentsAdmit assumed == some true) :: admitting assumed group := rfl
        simp only [hadmitting, forall₂_cons, hboth, ih hlength hrest]
        tauto

/-! ## All rounds -/

/-- The rounds end in a list that another round does not change, and drop no
member of a justified list. -/
theorem settle_spec {bound : Nat} {start found : List Bool} (hlength : start.length = group.length)
    (hbound : start.count true < bound)
    (habove : ∀ lower, Justified env group lower → Below lower start)
    (h : settle env group bound start = some found) :
    Justified env group found ∧ ∀ lower, Justified env group lower → Below lower found := by
  induction bound generalizing start with
  | zero => exact absurd hbound (Nat.not_lt_zero _)
  | succ bound ih =>
    obtain ⟨refined, hrefined, h⟩ := Option.bind_eq_some_iff.mp h
    have hbelow := (below_refine_iff hlength hrefined).mp (below_refl refined)
    split at h
    · rename_i hstable
      cases h
      rw [hstable] at hbelow
      exact ⟨justified_iff.mpr hbelow.2, habove⟩
    · rename_i hchanged
      have hcount := (eq_or_count_lt hbelow.1).resolve_left hchanged
      refine ih (hbelow.1.length_eq.trans hlength) (by omega) ?_ h
      intro lower hlower
      have hbelow := habove lower hlower
      refine (below_refine_iff hlength hrefined).mpr ⟨hbelow, ?_⟩
      exact below_trans (justified_iff.mp hlower) (below_admitting hbelow)

theorem isSome_mapM {α β : Type} {f : α → Option β} {items : List α}
    (h : ∀ item ∈ items, (f item).isSome = true) : (items.mapM f).isSome = true := by
  induction items with
  | nil => rfl
  | cons item items ih =>
    obtain ⟨hitem, hitems⟩ := forall_mem_cons.mp h
    obtain ⟨result, hresult⟩ := isSome_iff_exists.mp hitem
    obtain ⟨results, hresults⟩ := isSome_iff_exists.mp (ih hitems)
    simp [hresult, hresults]

theorem isSome_settle (h : ∀ assumed, ∀ member ∈ group,
      (member.argumentsAdmit (assume env group assumed)).isSome = true)
    (bound : Nat) (start : List Bool) : (settle env group bound start).isSome = true := by
  induction bound generalizing start with
  | zero => rfl
  | succ bound ih =>
    have hrefine : (refine env group start).isSome = true := by
      refine isSome_mapM ?_
      rintro ⟨member, _ | _⟩ hentry
      · rfl
      · exact h start member (of_mem_zip hentry).1
    obtain ⟨refined, hrefined⟩ := isSome_iff_exists.mp hrefine
    rw [settle, hrefined, bind_eq_bind, bind_some]
    split
    · rfl
    · exact ih refined

/-- The members found to admit equality are the greatest justified list, and
exactly those whose constructor arguments admit it.  They are found if the
test of the arguments of each member comes to an end. -/
theorem equality_isGreatest (env : TypeEnv) (group : List GroupMember) :
    (∀ found, equality env group = some found →
      Justified env group found ∧ (∀ lower, Justified env group lower → Below lower found) ∧
        found = admitting (assume env group found) group) ∧
    ((∀ assumed, ∀ member ∈ group,
        (member.argumentsAdmit (assume env group assumed)).isSome = true) →
      (equality env group).isSome = true) := by
  refine ⟨fun found hfound => ?_, fun hends => isSome_settle hends _ _⟩
  have hstart : ∀ lower, Justified env group lower → Below lower (group.map fun _ => true) := by
    intro lower hlower
    rw [Below, forall₂_map_right_iff]
    exact List.Forall₂.imp (fun _ _ _ => Bool.le_true _) hlower
  obtain ⟨hjustified, hgreatest⟩ := settle_spec (by simp) (by simp) hstart hfound
  refine ⟨hjustified, hgreatest, ?_⟩
  have hbelow := justified_iff.mp hjustified
  -- What the list justifies is justified in turn, so it is not larger.
  have habove := hgreatest _ (justified_iff.mpr (below_admitting hbelow))
  rcases eq_or_count_lt hbelow with heq | hlt
  · exact heq
  · rcases eq_or_count_lt habove with heq | hgt
    · exact heq.symm
    · exact absurd hgt (Nat.lt_asymm hlt)

end Sml.GroupMember

/-! ## A type that is never unfolded to the end -/

namespace Sml

open Ty

/-- The type stands for another one that is applied to the type itself. -/
def TypeInfo.isOfItself (head : TyCon) (info : TypeInfo) : Bool :=
  match info.type with
  | .arrow (.con own []) (.con _ [.con inner []]) => own == head && inner == head
  | _ => false

theorem TypeInfo.exists_of_isOfItself {head : TyCon} {info : TypeInfo}
    (h : info.isOfItself head = true) :
    ∃ outer, info.abbreviation? = some ⟨head, [], .con outer [.con head []]⟩ := by
  unfold isOfItself at h
  split at h
  · rename_i own outer inner htype
    rw [Bool.and_eq_true, beq_iff_eq, beq_iff_eq] at h
    obtain ⟨rfl, rfl⟩ := h
    exact ⟨outer, by rw [abbreviation?, htype]⟩
  · cases h

section OfItself

variable {env : TypeEnv} {head : TyCon} (h : (env.definition? head).any (·.isOfItself head) = true)
include h

theorem instantiateTo_ofItself (depth : Nat) (seen : List String) (store : Store) :
    instantiateTo depth env seen store (.con head []) = .error .endless := by
  obtain ⟨info, hinfo, hitself⟩ := (Option.any_eq_true _ _).mp h
  obtain ⟨outer, habbreviation⟩ := TypeInfo.exists_of_isOfItself hitself
  have hstep : ∀ depth, instantiateTo (depth + 1) env seen store (.con head []) =
      instantiateTo depth env seen store (.con outer [.con head []]) := by
    intro depth
    simp [instantiateTo, hinfo, habbreviation, renewAbbreviation, mergeCons, mergePairs,
      TyCon.same, rename, fold, rebuild]
  -- Two steps lead back to the type.
  induction depth using Nat.strong_induction_on with
  | _ depth ih =>
    rcases depth with _ | _ | depth
    · rfl
    · rw [hstep]
      rfl
    · rw [hstep, instantiateTo, List.mapM_cons, ih depth (by omega)]
      rfl

theorem admitsEquality_ofItself (hassumed : env.assumed? head.name head.id = none) :
    (con head []).admitsEquality env = none := by
  obtain ⟨room, hroom⟩ := exists_admitsEquality_eq
  have hendless : instantiate env {} (con head []) = .error .endless :=
    instantiateTo_ofItself h _ _ _
  obtain ⟨info, hinfo, hitself⟩ := (Option.any_eq_true _ _).mp h
  obtain ⟨outer, habbreviation⟩ := TypeInfo.exists_of_isOfItself hitself
  obtain ⟨htype, hid⟩ := Option.filter_eq_some_iff.mp hinfo
  rw [beq_iff_eq] at hid
  rw [hroom, admitsBy]
  simp [hassumed, htype, hid, TypeInfo.isAbbreviation, habbreviation, hendless]

theorem GroupMember.equality_ofItself (hassumed : env.assumed? head.name head.id = none)
    {name : String} (hname : name ≠ head.name) :
    equality env [⟨{ name }, 0, [con head []]⟩] = none := by
  have hendless : (con head []).admitsEquality (env.assume name 0 ⟨0, true⟩) = none := by
    refine @admitsEquality_ofItself (env.assume name 0 ⟨0, true⟩) head h ?_
    simp [TypeEnv.assume, hname.symm, hassumed]
  have hplain : (con head []).asEqualityType = con head [] := rfl
  have hrefine : refine env [⟨{ name }, 0, [con head []]⟩] [true] = none := by
    simp [refine, assume, argumentsAdmit, hplain, hendless]
  rw [equality, settle, List.map_singleton, hrefine]
  rfl

end OfItself

/-- After these declarations the type `S.t` stands for lists of itself. -/
def unfounded : Session :=
  (Session.basic.load 9 "datatype t = A functor F (X : sig type t end) = X").load 9
    "structure S = F (struct type t = t -> t list end)"

def unfoundedEnv : TypeEnv := unfounded.tree.typeEnv unfounded.scope

/-- Nothing is found for `datatype u = U of S.t`. -/
theorem GroupMember.equality_unfounded :
    equality unfoundedEnv [⟨{ name := "u" }, 0, [.con { name := "t", path := ["S"] } []]⟩] =
      none := by
  apply equality_ofItself
  · decide +kernel
  · rw [← Option.isNone_iff_eq_none]
    decide +kernel
  · decide

end Sml
