import Sml.Proofs.ElaborationScope
import Sml.Proofs.Environments
import Sml.Proofs.Finalization

/-!
# Equality after later declarations

Whether a type admits equality is found out from what its name and the names
of its constructors mean at that time.  Later declarations leave the answer
as it is if none of them declares such a name anew: neither the name of a
type that the type involves, nor that of a constructor of it, nor the
structure in which they are found.
-/

namespace Sml

open Option StaticBasis TypeEnv ScopeTree Table

/-! ## What a type involves -/

/-- The declared types that come up when a type is looked at: those it
mentions, those in their declarations, and those in the arguments of their
constructors. -/
inductive TypeEnv.Involves (env : TypeEnv) (type : Ty) : TyCon → Nat → Prop
  | mentioned {entry : TyCon × Nat} : entry ∈ type.heads →
      Involves env type entry.1 entry.2
  | hidden {head : TyCon} {count : Nat} (hidden : Bool) :
      Involves env type head count →
      Involves env type { head with hidden } count
  | declared {head : TyCon} {count : Nat} {info : TypeInfo}
      {entry : TyCon × Nat} :
      Involves env type head count → env.definition? head = some info →
      entry ∈ info.type.heads → Involves env type entry.1 entry.2
  | constructor {head : TyCon} {count : Nat} {info : TypeInfo}
      {constructor : String} {argument : Ty} {entry : TyCon × Nat} :
      Involves env type head count → env.definition? head = some info →
      constructor ∈ info.constructors →
      env.argument? head.path constructor = some argument →
      entry ∈ argument.heads → Involves env type entry.1 entry.2

theorem TypeEnv.closed_involves (env : TypeEnv) (type : Ty) :
    env.Closed True (env.Involves type) where
  hidden hidden h := .hidden hidden h
  abbreviations := by
    intro head count info abbreviation h hinfo habbreviation
    have hbuilt : info.type.BuiltFrom (env.Involves type) :=
      fun entry hentry => .declared h hinfo hentry
    unfold TypeInfo.abbreviation? at habbreviation
    split at habbreviation
    · rename_i hshape
      cases habbreviation
      rw [hshape, Ty.builtFrom_arrow, Ty.builtFrom_con] at hbuilt
      exact ⟨trivial, hbuilt.1.2, hbuilt.2⟩
    · cases habbreviation
  constructors h hinfo hmem hargument entry hentry := .constructor h hinfo hmem hargument hentry

section Agreement

variable {A : Prop} {H : TyCon → Nat → Prop} {env other : TypeEnv} (hclosed : env.Closed A H)
  (htypes : ∀ head count, H head count →
    other.type? head.path head.name = env.type? head.path head.name)
  (harguments : ∀ head count info, H head count →
    env.definition? head = some info → ∀ constructor ∈ info.constructors,
      other.argument? head.path constructor = env.argument? head.path constructor)
  (hassumed : ∀ head count, H head count →
    other.assumed? head.name head.id = env.assumed? head.name head.id)
include hclosed htypes harguments hassumed

theorem TypeEnv.trusts_of_agree : env.Trusts A H other where
  toClosed := hclosed
  types h := htypes _ _ h
  arguments h hinfo hmem := harguments _ _ _ h hinfo _ hmem
  kept h hfound := ⟨_, (hassumed _ _ h).trans hfound, fun hequality => hequality⟩
  new h hnone hmore := by
    rw [hassumed _ _ h, hnone] at hmore
    cases hmore

theorem TypeEnv.trusted_of_agree : other.Trusts A H env := by
  have hdefinition : ∀ {head count}, H head count →
      other.definition? head = env.definition? head := by
    intro head count h
    rw [definition?, htypes _ _ h, definition?]
  apply trusts_of_agree
  · constructor
    · exact hclosed.hidden
    · intro head count info abbreviation h hinfo
      exact hclosed.abbreviations h ((hdefinition h).symm.trans hinfo)
    · intro head count info constructor argument h hinfo hmem hargument
      have hinfo := (hdefinition h).symm.trans hinfo
      rw [harguments _ _ _ h hinfo _ hmem] at hargument
      exact hclosed.constructors h hinfo hmem hargument
  · exact fun head count h => (htypes head count h).symm
  · intro head count info h hinfo constructor hmem
    exact (harguments _ _ _ h ((hdefinition h).symm.trans hinfo) _ hmem).symm
  · exact fun head count h => (hassumed head count h).symm

/-- Environments that agree on what a type involves agree on whether it
admits equality. -/
theorem Ty.admitsEquality_congr {type : Ty} (htype : type.BuiltFrom H) :
    type.admitsEquality other = some true ↔ type.admitsEquality env = some true := by
  constructor
  · exact admitsEquality_mono (trusted_of_agree hclosed htypes harguments hassumed) htype
  · exact admitsEquality_mono (trusts_of_agree hclosed htypes harguments hassumed) htype

end Agreement

/-! ## Frames that declare other names -/

namespace Frame

def declares {α : Type} (frame : Frame) (table : Table α) :
    (path : List String) → (name : String) → Bool
  | [], name => contains table name
  | first :: _, _ => contains frame.statics.structures first

/-- Whether the frame declares the name of a type or of a constructor that the
type has in the environment. -/
def shadows (frame : Frame) (env : TypeEnv) (head : TyCon) : Bool :=
  frame.declares frame.statics.types head.path head.name || (env.definition? head).any fun info =>
      info.constructors.any fun constructor =>
        frame.declares frame.statics.values head.path constructor

/-- A frame that holds only values shadows a type only by the name of one of
its constructors. -/
theorem shadows_eq_false {frame : Frame} {env : TypeEnv} {head : TyCon}
    (htypes : frame.statics.types = []) (hstructures : frame.statics.structures = [])
    (hvalues : ∀ info, env.definition? head = some info → head.path = [] →
      ∀ constructor ∈ info.constructors, contains frame.statics.values constructor = false) :
    frame.shadows env head = false := by
  unfold shadows declares
  rw [htypes, hstructures]
  cases hpath : head.path with
  | cons first rest =>
    cases env.definition? head <;> simp [contains]
  | nil =>
    cases hinfo : env.definition? head with
    | none => rfl
    | some info =>
      rw [any_some, Bool.or_eq_false_iff, List.any_eq_false]
      refine ⟨rfl, fun constructor hmem => ?_⟩
      exact Bool.eq_false_iff.mp (hvalues info hinfo hpath constructor hmem)

end Frame

variable {name : String}
variable {path : List String}

namespace ScopeTree

variable {before after : ScopeTree} {added scope : Scope}

section Lookups

variable (hscope : ∀ number ∈ scope, (after.frame number).statics = (before.frame number).statics)
include hscope

theorem find?_table_append {α : Type} (table : StaticBasis → Table α)
    (hadded : ∀ number ∈ added, contains (table (after.frame number).statics) name = false) :
    after.find? 0 (fun frame => get? (table frame.statics) name) (added ++ scope) =
      before.find? 0 (fun frame => get? (table frame.statics) name)
        scope := by
  have hnone : ∀ number ∈ added, get? (table (after.frame number).statics) name = none :=
    fun number hnumber => isSome_eq_false_iff.mp (hadded number hnumber) |> isNone_iff_eq_none.mp
  rw [find?_zero, find?_zero, List.findSome?_append, List.findSome?_eq_none_iff.mpr hnone, none_or]
  exact findSome?_congr fun number hnumber => by rw [hscope number hnumber]

theorem staticStructure?_append {first : String} {rest : List String} (hadded : ∀ number ∈ added,
      contains (after.frame number).statics.structures first = false) :
    after.staticStructure? (added ++ scope) (first :: rest) =
      before.staticStructure? scope (first :: rest) := by
  have hfind := find?_table_append hscope structures hadded
  simp only [staticStructure?, hfind]

theorem staticType?_append (hadded : ∀ number ∈ added, (after.frame number).declares
      (after.frame number).statics.types path name = false) :
    after.staticType? (added ++ scope) path name = before.staticType? scope path name := by
  cases path with
  | nil => exact find?_table_append hscope StaticBasis.types hadded
  | cons first rest =>
    unfold staticType?
    rw [staticStructure?_append hscope hadded]

theorem staticValue?_append (hadded : ∀ number ∈ added, (after.frame number).declares
      (after.frame number).statics.values path name = false) :
    after.staticValue? (added ++ scope) path name = before.staticValue? scope path name := by
  cases path with
  | nil => exact find?_table_append hscope values hadded
  | cons first rest =>
    unfold staticValue?
    rw [staticStructure?_append hscope hadded]

end Lookups

end ScopeTree

/-! ## Later declarations -/

section Later

variable {scope result : Scope} {program : Program} {state after : ElabState}

/-- Declarations leave it as it is whether a type admits equality, unless one
of them declares the name of a type that it involves, or of one of the
constructors, anew. -/
theorem elabProgram_admitsEquality (hscope : scope.Within state.tree)
    (h : elabProgram scope program state = .ok result after) {type : Ty}
    (hclear : ∀ number ∈ result, state.tree.frames.size ≤ number →
      ∀ head count, (state.tree.typeEnv scope).Involves type head count →
        (after.tree.frame number).shadows (state.tree.typeEnv scope) head = false) :
    type.admitsEquality (after.tree.typeEnv result) = some true ↔
      type.admitsEquality (state.tree.typeEnv scope) = some true := by
  obtain ⟨added, rfl, hadded, -⟩ := (extended_elabProgram hscope h).added
  have hgrown : ElabState.Elaborated state.tree.frames.size state after :=
    (grows_elabProgram _ _).of_ok h le_rfl
  have hkept : ∀ number ∈ scope, after.tree.frame number = state.tree.frame number :=
    fun number hnumber => hgrown.spares.frame_eq (hscope number hnumber)
  have hstatics : ∀ number ∈ scope, (after.tree.frame number).statics =
      (state.tree.frame number).statics :=
    fun number hnumber => by rw [hkept number hnumber]
  have hnew : ∀ number ∈ added, ∀ head count, (state.tree.typeEnv scope).Involves type head count →
      (after.tree.frame number).shadows (state.tree.typeEnv scope) head =
        false :=
    fun number hnumber => hclear number (by simp [hnumber])
      (hadded number hnumber).1
  refine Ty.admitsEquality_congr (TypeEnv.closed_involves _ type) ?_ ?_ ?_
    fun entry hentry => .mentioned hentry
  · intro head count hinvolved
    refine staticType?_append hstatics fun number hnumber => ?_
    exact (Bool.or_eq_false_iff.mp (hnew number hnumber head count hinvolved)).1
  · intro head count info hinvolved hinfo constructor hmem
    have hvalue : after.tree.staticValue? (added ++ scope) head.path
        constructor = state.tree.staticValue? scope head.path constructor := by
      refine staticValue?_append hstatics fun number hnumber => ?_
      have hclear := (Bool.or_eq_false_iff.mp (hnew number hnumber head count hinvolved)).2
      rw [hinfo, Option.any_some, List.any_eq_false] at hclear
      exact Bool.eq_false_iff.mpr (hclear constructor hmem)
    simp only [TypeEnv.argument?, typeEnv, hvalue]
  · intro head count _
    change after.tree.assumption? (added ++ scope) head.name head.id =
      state.tree.assumption? scope head.name head.id
    have hnone : ∀ number ∈ added,
        (state.tree.frame number).assumptions.lookup (head.name, head.id) =
          none := by
      intro number hnumber
      rw [frame, Array.getElem?_eq_none (hadded number hnumber).1]
      rfl
    simp only [assumption?, find?_zero, hgrown.assumptions]
    rw [List.findSome?_append, List.findSome?_eq_none_iff.mpr hnone, Option.none_or]

/-- A later function leaves a datatype its equality. -/
theorem elabProgram_admitsEquality_function : ∃ step info,
    TopLevelStep.ofTexts? "datatype t = A of int | B of t" "val f = fn x => x" = some step ∧
    step.state.tree.staticType? step.scope [] "t" = some info ∧
    info.type.admitsEquality (step.state.tree.typeEnv step.scope) = some true ∧
    info.type.admitsEquality (step.after.tree.typeEnv step.result) = some true := by
  obtain ⟨step, hstep, ⟨info, hinfo, hadmits⟩, hscope, hresult⟩ : ∃ step,
      TopLevelStep.ofTexts? "datatype t = A of int | B of t" "val f = fn x => x" = some step ∧
      (∃ info, step.state.tree.staticType? step.scope [] "t" = some info ∧
        info.type.admitsEquality (step.state.tree.typeEnv step.scope) = some true) ∧
      (∀ number ∈ step.scope, number < step.state.tree.frames.size ∧
        ∀ entry ∈ (step.state.tree.frame number).statics.types, "f" ∉ entry.2.constructors) ∧
      ∀ number ∈ step.result, step.state.tree.frames.size ≤ number →
        (step.after.tree.frame number).statics.types = [] ∧
        (step.after.tree.frame number).statics.structures = [] ∧
        ∀ entry ∈ (step.after.tree.frame number).statics.values, entry.1 = "f" := by
    decide +kernel
  refine ⟨step, info, hstep, hinfo, hadmits, ?_⟩
  have hprogram : elabProgram step.scope ⟨[step.declaration]⟩ step.state =
      .ok step.result step.after := by
    rw [← step.topLevel_eq, elabProgram, List.foldlM_cons]
    exact congrFun (bind_pure _) _
  refine (elabProgram_admitsEquality (fun number hnumber =>
    (hscope number hnumber).1) hprogram ?_).mpr hadmits
  intro number hnumber hnew head count _
  obtain ⟨htypes, hstructures, hvalues⟩ := hresult number hnumber hnew
  refine Frame.shadows_eq_false htypes hstructures ?_
  intro found hfound hpath constructor hmem
  rw [Bool.eq_false_iff, ne_eq, contains_iff]
  rintro hdeclared
  obtain ⟨entry, hentry, rfl⟩ := List.mem_map.mp hdeclared
  have hlookup : step.state.tree.staticType? step.scope head.path head.name =
      some found := (Option.filter_eq_some_iff.mp hfound).1
  rw [hpath, staticType?] at hlookup
  obtain ⟨outer, houter, hget⟩ := exists_of_find? hlookup
  have hother := (hscope outer houter).2 _ (mem_of_get? hget)
  rw [hvalues entry hentry] at hmem
  exact hother hmem

/-- An exception with the name of a constructor takes the equality away. -/
theorem elabProgram_admitsEquality_shadowed : ∃ step info,
    TopLevelStep.ofTexts? "datatype t = A of int" "exception A of int -> int" = some step ∧
    step.state.tree.staticType? step.scope [] "t" = some info ∧
    info.type.admitsEquality (step.state.tree.typeEnv step.scope) = some true ∧
    info.type.admitsEquality (step.after.tree.typeEnv step.result) = some false := by
  simp only [exists_and_left]
  decide +kernel

/-- Where a constructor has become a variable it still may not be bound anew. -/
theorem mayRebind_shadowed : ∃ step,
    TopLevelStep.ofTexts? "datatype t = A of int" "fun A x = x" = some step ∧
    (step.after.tree.staticValue? step.result [] "A").map (·.status) = some .value ∧
    step.after.tree.mayRebind step.result "A" = false := by
  decide +kernel

end Later

end Sml
