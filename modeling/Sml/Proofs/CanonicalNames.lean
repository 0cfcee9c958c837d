import Mathlib.Data.Set.Function
import Sml.Proofs.Variables
import Sml.Static.TyText

/-!
# Canonical names

For display the variables of a type are named in order of appearance.  Types
that differ only in the names of their variables are shown alike, and a type
that is named so is left as it is.
-/

namespace Sml.Ty

open List Table

/-! ## The names given -/

def columnLetter (number : Nat) : Char := Char.ofNat ('a'.toNat + number)

theorem columnLetters_succ (bound index : Nat) : columnLetters (bound + 1) index =
    columnLetter (index % 26) ::
      if index < 26 then [] else columnLetters bound (index / 26 - 1) := by
  rw [columnLetters]
  split <;> rfl

/-- Letters that a map tells apart tell the numbers apart. -/
theorem columnLetters_injective {f : Char → Char} (hf : ∀ m < 26, ∀ n < 26,
      f (columnLetter m) = f (columnLetter n) → m = n) {bound other first second : Nat}
    (hfirst : first < bound) (hsecond : second < other)
    (h : (columnLetters bound first).map f = (columnLetters other second).map f) :
    first = second := by
  induction bound generalizing other first second with
  | zero => omega
  | succ bound ih =>
    obtain ⟨other, rfl⟩ := Nat.exists_eq_succ_of_ne_zero (by omega : other ≠ 0)
    simp only [columnLetters_succ, map_cons, cons.injEq] at h
    have hlast := hf _ (Nat.mod_lt _ (by decide)) _ (Nat.mod_lt _ (by decide)) h.1
    have hsome : ∀ bound index, index < bound → (columnLetters bound index).map f ≠ [] := by
      rintro (_ | bound) index hindex
      · cases hindex
      · simp [columnLetters_succ]
    obtain ⟨-, hrest⟩ := h
    split at hrest <;> split at hrest
    · omega
    · exact absurd hrest.symm (hsome _ _ (by omega))
    · exact absurd hrest (hsome _ _ (by omega))
    · have := ih (by omega) (by omega) hrest
      omega

theorem columnName_injective (f : Char → Char) (hf : ∀ m < 26, ∀ n < 26,
      f (columnLetter m) = f (columnLetter n) → m = n) (first second : Nat)
    (h : (columnName first).toList.map f = (columnName second).toList.map f) : first = second := by
  simp only [columnName, String.toList_ofList, map_reverse, reverse_inj] at h
  exact columnLetters_injective hf (Nat.lt_succ_self _) (Nat.lt_succ_self _) h

theorem not_mem_columnName {c : Char} (hc : ∀ n < 26, c ≠ columnLetter n) (number : Nat) :
    c ∉ (columnName number).toList := by
  rw [columnName, String.toList_ofList, mem_reverse]
  generalize number + 1 = bound
  induction bound generalizing number with
  | zero => exact not_mem_nil
  | succ bound ih =>
    rw [columnLetters_succ, mem_cons, not_or]
    refine ⟨hc _ (Nat.mod_lt _ (by decide)), ?_⟩
    split
    · exact not_mem_nil
    · exact ih _

theorem shownName_injective {free other equality otherEquality : Bool} {first second : Nat}
    (h : shownName free equality first = shownName other otherEquality second) :
    free = other ∧ first = second := by
  have htexts := congrArg String.toList h
  have hwave := not_mem_columnName (c := '~') (by decide)
  have hprime := not_mem_columnName (c := '\'') (by decide)
  have hplain := columnName_injective id (by decide) first second
  have hupper := columnName_injective Char.toUpper (by decide) first second
  -- Names of two kinds have different second characters.
  cases free <;> cases other <;> cases equality <;> cases otherEquality <;>
    simp [shownName, String.toUpper] at htexts ⊢ <;> grind

theorem isEqualityName_shownName (equality : Bool) (number : Nat) :
    isEqualityName (shownName false equality number) = equality := by
  rw [Bool.eq_iff_iff, isEqualityName, String.startsWith_string_iff]
  have hprime := not_mem_columnName (c := '\'') (by decide) number
  cases equality
  · simpa [shownName] using fun h => hprime (h.mem (by simp))
  · simp [shownName]

variable {f g h : String → String} {isFree other : String → Bool} {names : List String}
  {next : Nat} {name : String} {type part : Ty}

def renamed (names : Table String) (name : String) : String := (Table.get? names name).getD name

theorem renamed_shownNames (hnodup : names.Nodup) (hname : name ∈ names) :
    renamed (shownNames isFree names next) name =
      shownName (isFree name) (isEqualityName name) (if isFree name then
        next + (names.filter isFree).idxOf name else (names.filter (!isFree ·)).idxOf name) := by
  rw [renamed, shownNames, partition_eq_filter_filter,
    get?_ofList_of_nodup (by simpa [Function.comp_def] using hnodup) (mem_map_of_mem hname)]
  rfl

theorem injOn_shownNames (hnodup : names.Nodup) :
    Set.InjOn (renamed (shownNames isFree names next)) {name | name ∈ names} := by
  intro first hfirst second hsecond h
  rw [renamed_shownNames hnodup hfirst, renamed_shownNames hnodup hsecond] at h
  obtain ⟨hkind, hnumber⟩ := shownName_injective h
  rw [← hkind] at hnumber
  split at hnumber
  · rename_i hfree
    exact (idxOf_inj (mem_filter.mpr ⟨hfirst, hfree⟩)).mp (Nat.add_left_cancel hnumber)
  · rename_i hbound
    exact (idxOf_inj (mem_filter.mpr ⟨hfirst, by simpa using hbound⟩)).mp hnumber

theorem idxOf_map (hf : Set.InjOn f {name | name ∈ names}) (hname : name ∈ names)
    {some : List String} (hsome : some ⊆ names) :
    (some.map f).idxOf (f name) = some.idxOf name := by
  induction some with
  | nil => rfl
  | cons first some ih =>
    have heq : (f first == f name) = (first == name) := by
      rw [Bool.eq_iff_iff, beq_iff_eq, beq_iff_eq, hf.eq_iff (hsome mem_cons_self) hname]
    rw [map_cons, idxOf_cons, idxOf_cons, heq, ih (subset_of_cons_subset hsome)]

/-- Names that are put for others, free ones for free ones, are shown by the
same names. -/
theorem renamed_shownNames_map (hnodup : names.Nodup) (hf : Set.InjOn f {name | name ∈ names})
    (hfree : ∀ name ∈ names, other (f name) = isFree name)
    (hequality : ∀ name ∈ names, isFree name = false →
      isEqualityName (f name) = isEqualityName name)
    (hname : name ∈ names) : renamed (shownNames other (names.map f) next) (f name) =
      renamed (shownNames isFree names next) name := by
  rw [renamed_shownNames (hnodup.map_on fun _ hx _ hy => hf hx hy) (mem_map_of_mem hname),
    renamed_shownNames hnodup hname, hfree name hname, filter_map, filter_map,
    filter_congr (p := other ∘ f) hfree,
    filter_congr (p := (!other ·) ∘ f) fun name hname => congrArg not (hfree name hname),
    idxOf_map hf hname filter_sublist.subset, idxOf_map hf hname filter_sublist.subset]
  cases hkind : isFree name with
  | true => rfl
  | false => rw [hequality name hname hkind]

/-! ## Renaming -/

def relabel (f : String → String) : Ty → Ty :=
  fold { rebuild with
    var := fun name domain free => .var (f name) domain free
    bind := fun name domain free _ body => .bind (f name) domain free body }

/-- The names of variables and binders where they stand, domains apart. -/
def mentions : Ty → List String := fold {
    any := []
    var := fun name _ _ => [name]
    bind := fun name _ _ _ body => name :: body
    record := fun fields _ => fields.flatMap (·.2)
    arrow := fun parameter result => parameter ++ result
    con := fun _ arguments => arguments.flatten
    tuple := fun elements => elements.flatten }

theorem mentions_joined (h : type.isJoined = true) :
    type.mentions = type.components.flatMap mentions := by
  cases type <;> simp_all [mentions, fold, components, isJoined, mapValues, flatMap_map,
    ← flatMap_def]

theorem mentions_subset {part : Ty} (h : type.isJoined = true) (hpart : part ∈ type.components) :
    part.mentions ⊆ type.mentions := by
  rw [mentions_joined h]
  exact fun name hname => mem_flatMap_of_mem hpart hname

theorem relabel_joined (f : String → String) (h : type.isJoined = true) :
    type.relabel f = type.mapComponents (relabel f) := fold_joined h

theorem mentions_relabel (f : String → String) (type : Ty) :
    (type.relabel f).mentions = type.mentions.map f := by
  induction type using induct_joined with
  | var name domain free => rfl
  | bind name domain free body ih => exact congrArg (f name :: ·) ih
  | joined type hjoined ih =>
    rw [relabel_joined f hjoined, mentions_joined (isJoined_mapComponents _ hjoined),
      components_mapComponents, mentions_joined hjoined, flatMap_map, map_flatMap]
    exact flatMap_congr ih

theorem relabel_relabel (hfg : ∀ name ∈ type.mentions, g (f name) = h name) :
    (type.relabel f).relabel g = type.relabel h := by
  induction type using induct_joined with
  | var name domain free =>
    change var (g (f name)) domain free = var (h name) domain free
    rw [hfg name (by simp [mentions, fold])]
  | bind name domain free body ih =>
    change bind (g (f name)) domain free ((body.relabel f).relabel g) =
      bind (h name) domain free (body.relabel h)
    rw [hfg name mem_cons_self, ih fun name hname => hfg name (mem_cons_of_mem _ hname)]
  | joined type hjoined ih =>
    rw [relabel_joined f hjoined, relabel_joined g (isJoined_mapComponents _ hjoined),
      mapComponents_mapComponents, relabel_joined h hjoined]
    exact mapComponents_congr fun part hpart => ih part hpart fun name hname =>
      hfg name (mentions_subset hjoined hpart hname)

theorem collectNames_eq (type : Ty) (found : List String) : fold collectNames type found =
      type.mentions.foldl (fun found name => addName name found) found := by
  induction type using induct_joined generalizing found with
  | var name domain free => rfl
  | bind name domain free body ih => exact ih _
  | joined type hjoined ih =>
    rw [fold_collect collects_names hjoined, mentions_joined hjoined, foldl_flatMap]
    exact foldl_ext _ _ _ fun found part hpart => ih part hpart found

theorem mem_keys_addVariables (inner found : Table (List Ty)) (name : String) :
    name ∈ keys (inner.foldl (fun found entry => addVariable entry.1 entry.2 found) found) ↔
      name ∈ keys inner ∨ name ∈ keys found := by
  induction inner generalizing found with
  | nil => simp
  | cons entry inner ih =>
    rw [foldl_cons, ih, mem_keys_addVariable, Table.keys_cons, mem_cons, eq_comm (a := name)]
    tauto

theorem mem_keys_erase (table : Table (List Ty)) (name other : String) :
    other ∈ keys (erase table name) ↔ other ∈ keys table ∧ other ≠ name := by
  simp [Table.keys, Table.erase]

/-- Renaming keeps which names are free. -/
theorem mem_variableDomains_relabel {names : List String} (hf : Set.InjOn f {name | name ∈ names})
    (hnames : type.mentions ⊆ names) {found other : Table (List Ty)}
    (hfound : ∀ name ∈ names, f name ∈ keys other ↔ name ∈ keys found) :
    ∀ name ∈ names, f name ∈ keys (fold (collectVariables true) (type.relabel f) other) ↔
      name ∈ keys (fold (collectVariables true) type found) := by
  induction type using induct_joined generalizing found other with
  | var name domain free =>
    intro other hother
    have hname := hf.eq_iff (hnames mem_cons_self) hother
    cases free with
    | false => exact hfound _ hother
    | true =>
      change _ ∈ keys (addVariable _ _ _) ↔ _ ∈ keys (addVariable _ _ _)
      rw [mem_keys_addVariable, mem_keys_addVariable, hname, hfound _ hother]
  | bind name domain free body ih =>
    intro later hlater
    have hinner : f later ∈ keys (fold (collectVariables true) (body.relabel f) []) ↔
        later ∈ keys (fold (collectVariables true) body []) :=
      ih (subset_of_cons_subset hnames) (by simp) later hlater
    have hname := hf.eq_iff hlater (hnames mem_cons_self)
    change _ ∈ keys (foldl _ other (if free then _ else _)) ↔
      _ ∈ keys (foldl _ found (if free then _ else _))
    rw [mem_keys_addVariables, mem_keys_addVariables, hfound later hlater]
    cases free with
    | false =>
      simp only [Bool.false_eq_true, if_false, mem_keys_erase, ne_eq, hname]
      exact or_congr_left (and_congr_left fun _ => hinner)
    | true => exact or_congr_left hinner
  | joined type hjoined ih =>
    have hsubset : ∀ part ∈ type.components, part.mentions ⊆ names := fun part hpart =>
      List.Subset.trans (mentions_subset hjoined hpart) hnames
    rw [relabel_joined f hjoined, fold_collect (collects_variables true) hjoined, fold_collect
      (collects_variables true) (isJoined_mapComponents _ hjoined), components_mapComponents,
      foldl_map]
    -- The parts are collected one after the other.
    generalize type.components = parts at ih hsubset
    induction parts generalizing found other with
    | nil => exact hfound
    | cons part parts ihParts =>
      exact ihParts (ih part mem_cons_self (hsubset _ mem_cons_self) hfound)
        (fun part hpart => ih part (mem_cons_of_mem _ hpart))
        (fun part hpart => hsubset part (mem_cons_of_mem _ hpart))

/-! ## Canonical types -/

theorem variableNames_eq (type : Ty) :
    type.variableNames = (type.mentions.reverse ∪ []).reverse := by
  rw [variableNames, collectNames_eq, ← foldr_reverse]
  congr 1

theorem mem_variableNames_iff {name : String} :
    name ∈ type.variableNames ↔ name ∈ type.mentions := by
  simp [variableNames_eq]

theorem nodup_variableNames (type : Ty) : type.variableNames.Nodup := by
  rw [variableNames_eq, nodup_reverse]
  exact Nodup.union _ nodup_nil

theorem map_union_nil {names : List String} (hf : Set.InjOn f {name | name ∈ names}) :
    names.map f ∪ [] = (names ∪ []).map f := by
  induction names with
  | nil => rfl
  | cons name names ih =>
    have hmem : f name ∈ (names ∪ []).map f ↔ name ∈ names ∪ [] := by
      simp only [mem_map, mem_union_iff, not_mem_nil, or_false]
      exact ⟨fun ⟨other, hother, heq⟩ =>
        hf (mem_cons_of_mem _ hother) mem_cons_self heq ▸ hother, fun h => ⟨name, h, rfl⟩⟩
    rw [map_cons, cons_union, cons_union, ih (hf.mono fun _ => mem_cons_of_mem _)]
    by_cases h : name ∈ names ∪ []
    · rw [insert_of_mem (hmem.mpr h), insert_of_mem h]
    · rw [insert_of_not_mem (mt hmem.mp h), insert_of_not_mem h, map_cons]

theorem variableNames_relabel (hf : Set.InjOn f {name | name ∈ type.variableNames}) :
    (type.relabel f).variableNames = type.variableNames.map f := by
  rw [variableNames_eq, variableNames_eq, mentions_relabel, ← map_reverse, map_union_nil,
    map_reverse]
  simpa [mem_variableNames_iff] using hf

def isFreeIn (type : Ty) : String → Bool := Table.contains (type.variableDomains true)

theorem normalize_eq (type : Ty) (next : Nat) : type.normalize next false =
    (type.relabel (renamed (shownNames type.isFreeIn type.variableNames next)),
      next + type.variableNames.countP type.isFreeIn) := rfl

theorem normalize_relabel (hf : Set.InjOn f {name | name ∈ type.variableNames})
    (hequality : ∀ name ∈ type.variableNames, type.isFreeIn name = false →
      isEqualityName (f name) = isEqualityName name) (next : Nat) :
    (type.relabel f).normalize next false = type.normalize next false := by
  have hfree : ∀ name ∈ type.variableNames, (type.relabel f).isFreeIn (f name) =
      type.isFreeIn name := by
    intro name hname
    rw [Bool.eq_iff_iff, isFreeIn, isFreeIn, contains_iff, contains_iff]
    exact mem_variableDomains_relabel hf (fun _ => mem_variableNames_iff.mpr) (by simp) name hname
  rw [normalize_eq, normalize_eq, variableNames_relabel hf]
  refine Prod.ext (relabel_relabel fun name hname => ?_) (congrArg (next + ·) ?_)
  · exact renamed_shownNames_map (nodup_variableNames type) hf hfree hequality
      (mem_variableNames_iff.mpr hname)
  · rw [countP_map]
    exact countP_congr fun name hname => by rw [Function.comp, hfree name hname]

/-- The type for display is the type with its variables renamed apart, it is
its own type for display, and it does not depend on how the variables were
named, so long as those that admit equality keep to it. -/
theorem normalize_isCanonical (type : Ty) (next : Nat) :
    (∃ names, Set.InjOn (renamed names) {name | name ∈ type.variableNames} ∧
      (type.normalize next false).1 = type.rename names) ∧
    (type.normalize next false).1.normalize next false = type.normalize next false ∧
    ∀ names, Set.InjOn (renamed names) {name | name ∈ type.variableNames} →
      (∀ name ∈ type.variableNames,
        isEqualityName (renamed names name) = isEqualityName name) →
      (type.rename names).normalize next false = type.normalize next false := by
  have hnodup := nodup_variableNames type
  refine ⟨⟨_, injOn_shownNames hnodup, rfl⟩, ?_, fun names hnames hequality =>
    normalize_relabel hnames (fun name hname _ => hequality name hname) next⟩
  refine normalize_relabel (injOn_shownNames hnodup) (fun name hname hbound => ?_) next
  change isEqualityName (renamed (shownNames type.isFreeIn type.variableNames next) name) = _
  rw [renamed_shownNames hnodup hname, hbound, isEqualityName_shownName]

/-- The type `'x -> ''y * 'z` under a binder for `'x`, where `'z` is free. -/
def threeVariables : Ty :=
  .bind "'x" [] false (.arrow (.plain "'x") (.tuple [.plain "''y", .var "'z" [] true]))

theorem normalize_isCanonical_threeVariables :
    (threeVariables.rename [("''y", "''a"), ("'x", "'z"), ("'z", "'x")]).normalize 3 false =
      threeVariables.normalize 3 false := by
  have hnames : threeVariables.variableNames = ["'x", "''y", "'z"] := by decide
  refine (normalize_isCanonical threeVariables 3).2.2 _ ?_ ?_
  · rw [hnames]
    simp [Set.InjOn, renamed, Table.get?]
  · intro name hname
    rw [hnames] at hname
    rw [Bool.eq_iff_iff, isEqualityName, isEqualityName, String.startsWith_string_iff,
      String.startsWith_string_iff]
    revert name
    decide

end Sml.Ty
