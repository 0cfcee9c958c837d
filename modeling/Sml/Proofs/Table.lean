import Mathlib.Data.List.Sort
import Mathlib.Data.String.Basic
import Sml.Table

/-!
# Laws of tables

What an insertion does to every look-up, and what it means for a table to be
in order.  Two tables in order that answer every look-up alike are equal.
-/

namespace Sml.Table

open List

variable {α β : Type}

def Ordered (table : Table α) : Prop := (keys table).Pairwise (· < ·)

instance (table : Table α) : Decidable (Ordered table) :=
  inferInstanceAs (Decidable ((keys table).Pairwise (· < ·)))

@[simp] theorem keys_nil : keys ([] : Table α) = [] := rfl

@[simp] theorem keys_cons (entry : String × α) (table : Table α) :
    keys (entry :: table) = entry.1 :: keys table := rfl

@[simp] theorem ordered_nil : Ordered ([] : Table α) := List.Pairwise.nil

@[simp] theorem ordered_cons (entry : String × α) (table : Table α) : Ordered (entry :: table) ↔
      (∀ name ∈ keys table, entry.1 < name) ∧ Ordered table :=
  pairwise_cons

/-! ## Look-ups -/

@[simp] theorem get?_nil (name : String) : get? ([] : Table α) name = none := rfl

theorem get?_cons (entry : String × α) (table : Table α) (name : String) :
    get? (entry :: table) name =
      if entry.1 = name then some entry.2 else get? table name := rfl

theorem get?_insert (table : Table α) (name : String) (value : α) (other : String) :
    get? (insert table name value) other =
      if name = other then some value else get? table other := by
  induction table with
  | nil => rfl
  | cons entry table ih =>
    obtain ⟨key, old⟩ := entry
    simp only [insert]
    by_cases hkey : name = key
    · subst hkey
      by_cases h : name = other <;> simp [get?_cons, h]
    · rw [if_neg hkey]
      by_cases hlt : name < key
      · rw [if_pos hlt, get?_cons]
      · rw [if_neg hlt, get?_cons, get?_cons, ih]
        by_cases h : key = other
        · subst h
          simp [hkey]
        · simp [h]

theorem get?_eq_none_iff (table : Table α) (name : String) :
    get? table name = none ↔ name ∉ keys table := by
  induction table with
  | nil => simp
  | cons entry table ih =>
    by_cases h : entry.1 = name
    · simp [get?_cons, h]
    · simp [get?_cons, h, ih, Ne.symm h]

theorem contains_iff (table : Table α) (name : String) :
    contains table name = true ↔ name ∈ keys table := by
  rw [contains, Option.isSome_iff_ne_none, ne_eq, get?_eq_none_iff, not_not]

variable {name : String}
variable {table first second : Table α} {value : α} {entry : String × α}
  {entries : List (String × α)}

theorem mem_of_get? (h : get? table name = some value) : (name, value) ∈ table := by
  induction table with
  | nil => simp at h
  | cons entry table ih =>
    rw [get?_cons] at h
    split at h
    · rename_i hkey
      simp only [Option.some.injEq] at h
      subst hkey h
      simp
    · exact mem_cons_of_mem _ (ih h)

theorem get?_of_mem (hordered : Ordered table) (h : (name, value) ∈ table) :
    get? table name = some value := by
  induction table with
  | nil => simp at h
  | cons entry table ih =>
    rw [ordered_cons] at hordered
    rcases mem_cons.mp h with rfl | h
    · simp [get?_cons]
    · have hname : name ∈ keys table := mem_map.mpr ⟨_, h, rfl⟩
      have hne : entry.1 ≠ name := (hordered.1 name hname).ne
      rw [get?_cons, if_neg hne]
      exact ih hordered.2 h

theorem get?_filter (hordered : Ordered table) (keep : String × α → Bool) (name : String) :
    get? (table.filter keep) name = (get? table name).filter fun value => keep (name, value) := by
  induction table with
  | nil => rfl
  | cons entry table ih =>
    obtain ⟨hless, htable⟩ := (ordered_cons entry table).mp hordered
    have hrest := ih htable
    rw [filter_cons, get?_cons]
    by_cases hname : entry.1 = name
    · subst hname
      have hnone : get? table entry.1 = none := by
        rw [get?_eq_none_iff]
        exact fun hmem => lt_irrefl _ (hless _ hmem)
      rw [hnone] at hrest
      by_cases hkeep : keep entry = true
      · simp [hkeep, get?_cons, Option.filter]
      · simp [hkeep, hrest, Option.filter]
    · by_cases hkeep : keep entry = true
      · simp [hkeep, get?_cons, hname, hrest]
      · simp [hkeep, hname, hrest]

theorem get?_filterValues (hordered : Ordered table) (keep : α → Bool) (name : String) :
    get? (filterValues keep table) name = (get? table name).filter keep :=
  get?_filter hordered (fun entry => keep entry.2) name
/-! ## Insertion -/

theorem mem_keys_insert (table : Table α) (name : String) (value : α) (other : String) :
    other ∈ keys (insert table name value) ↔ other = name ∨ other ∈ keys table := by
  rw [← contains_iff, ← contains_iff, contains, contains, get?_insert]
  by_cases h : name = other
  · simp [h]
  · simp [h, Ne.symm h]

theorem ordered_insert (h : Ordered table) (name : String) (value : α) :
    Ordered (insert table name value) := by
  induction table with
  | nil => simp [insert]
  | cons entry table ih =>
    obtain ⟨key, old⟩ := entry
    rw [ordered_cons] at h
    simp only [insert]
    by_cases hkey : name = key
    · subst hkey
      rw [if_pos rfl, ordered_cons]
      exact h
    · rw [if_neg hkey]
      by_cases hlt : name < key
      · rw [if_pos hlt, ordered_cons, ordered_cons]
        refine ⟨?_, h⟩
        intro other hother
        rcases mem_cons.mp hother with rfl | hother
        · exact hlt
        · exact hlt.trans (h.1 other hother)
      · rw [if_neg hlt, ordered_cons]
        refine ⟨?_, ih h.2⟩
        intro other hother
        rcases (mem_keys_insert _ _ _ _).mp hother with rfl | hother
        · exact lt_of_le_of_ne (not_lt.mp hlt) (Ne.symm hkey)
        · exact h.1 other hother

/-! ## Values -/

@[simp] theorem keys_mapValues (f : α → β) (table : Table α) :
    keys (mapValues f table) = keys table := by
  simp [keys, mapValues]

theorem ordered_mapValues (f : α → β) (table : Table α) :
    Ordered (mapValues f table) ↔ Ordered table := by
  rw [Ordered, keys_mapValues, Ordered]

theorem get?_mapValues (f : α → β) (table : Table α) (name : String) :
    get? (mapValues f table) name = (get? table name).map f := by
  induction table with
  | nil => rfl
  | cons entry table ih =>
    change get? ((entry.1, f entry.2) :: mapValues f table) name = _
    rw [get?_cons, get?_cons, ih]
    by_cases h : entry.1 = name <;> simp [h]

theorem mapValues_insert (f : α → β) (table : Table α) (name : String) (value : α) :
    mapValues f (insert table name value) = insert (mapValues f table) name (f value) := by
  induction table with
  | nil => rfl
  | cons entry table ih =>
    obtain ⟨key, old⟩ := entry
    change _ = insert ((key, f old) :: mapValues f table) name (f value)
    simp only [insert]
    by_cases hkey : name = key
    · simp [hkey, mapValues]
    · by_cases hlt : name < key
      · simp [hkey, hlt, mapValues]
      · rw [if_neg hkey, if_neg hlt, if_neg hkey, if_neg hlt, ← ih]
        rfl

/-! ## Tables from lists -/

private theorem ordered_foldl_insert (entries : List (String × α)) :
    ∀ {table : Table α}, Ordered table → Ordered (entries.foldl
        (fun table entry => insert table entry.1 entry.2) table) := by
  induction entries with
  | nil => exact fun h => h
  | cons entry entries ih => exact fun h => ih (ordered_insert h _ _)

theorem ordered_ofList (entries : List (String × α)) : Ordered (ofList entries) :=
  ordered_foldl_insert entries ordered_nil

private theorem mapValues_foldl_insert (f : α → β) (entries : List (String × α)) (table : Table α) :
    mapValues f (entries.foldl (fun table entry => insert table entry.1 entry.2) table) =
      (entries.map fun entry => (entry.1, f entry.2)).foldl
        (fun table entry => insert table entry.1 entry.2)
        (mapValues f table) := by
  induction entries generalizing table with
  | nil => rfl
  | cons entry entries ih =>
    rw [foldl_cons, ih, mapValues_insert]
    rfl

theorem mapValues_ofList (f : α → β) (entries : List (String × α)) : mapValues f (ofList entries) =
      ofList (entries.map fun entry => (entry.1, f entry.2)) :=
  mapValues_foldl_insert f entries []

theorem mem_of_mem_insert (h : entry ∈ insert table name value) :
    entry = (name, value) ∨ entry ∈ table := by
  induction table with
  | nil => exact .inl (mem_singleton.mp h)
  | cons first rest ih =>
    simp only [insert] at h
    split at h
    · rcases mem_cons.mp h with rfl | h
      · exact .inl rfl
      · exact .inr (mem_cons_of_mem _ h)
    · split at h
      · exact mem_cons.mp h
      · rcases mem_cons.mp h with rfl | h
        · exact .inr mem_cons_self
        · exact (ih h).imp_right (mem_cons_of_mem _)

theorem forall_mem_insert {K : α → Prop} (h : ∀ entry ∈ table, K entry.2) (hvalue : K value) :
    ∀ entry ∈ insert table name value, K entry.2 := by
  intro entry hentry
  rcases mem_of_mem_insert hentry with rfl | hentry
  · exact hvalue
  · exact h entry hentry

theorem mem_of_mem_override (h : entry ∈ override first second) :
    entry ∈ first ∨ entry ∈ second := by
  unfold override at h
  induction second generalizing first with
  | nil => exact .inl h
  | cons new second ih =>
    rcases ih h with h | h
    · rcases mem_of_mem_insert h with rfl | h
      · exact .inr mem_cons_self
      · exact .inl h
    · exact .inr (mem_cons_of_mem _ h)

theorem mem_of_mem_ofList (h : entry ∈ ofList entries) : entry ∈ entries := by
  rcases mem_of_mem_override h with h | h
  · simp at h
  · exact h

theorem mem_of_mem_orElse (h : entry ∈ orElse first second) : entry ∈ first ∨ entry ∈ second := by
  unfold orElse at h
  induction second generalizing first with
  | nil => exact .inl h
  | cons new second ih =>
    rw [foldl_cons] at h
    rcases ih h with h | h
    · split at h
      · exact .inl h
      · rcases mem_of_mem_insert h with rfl | h
        · exact .inr mem_cons_self
        · exact .inl h
    · exact .inr (mem_cons_of_mem _ h)

theorem mem_keys_ofList : name ∈ keys (ofList entries) ↔ name ∈ entries.map (·.1) := by
  suffices hfoldl : ∀ table : Table α, name ∈ keys (entries.foldl
          (fun table entry => insert table entry.1 entry.2) table) ↔
        name ∈ entries.map (·.1) ∨ name ∈ keys table by
    simpa [ofList] using hfoldl []
  induction entries with
  | nil => simp
  | cons entry entries ih =>
    intro table
    rw [foldl_cons, ih, mem_keys_insert, map_cons, mem_cons]
    tauto

private theorem get?_foldl_insert (entries : List (String × α)) (table : Table α) (name : String)
    (h : name ∉ entries.map (·.1)) :
    get? (entries.foldl (fun table entry => insert table entry.1 entry.2) table) name =
      get? table name := by
  induction entries generalizing table with
  | nil => rfl
  | cons entry entries ih =>
    simp only [map_cons, mem_cons, not_or] at h
    rw [foldl_cons, ih _ h.2, get?_insert, if_neg (Ne.symm h.1)]

theorem get?_ofList_of_nodup (hnodup : (entries.map (·.1)).Nodup) (h : entry ∈ entries) :
    get? (ofList entries) entry.1 = some entry.2 := by
  obtain ⟨before, after, rfl⟩ := append_of_mem h
  have hafter : entry.1 ∉ after.map (·.1) := by
    simp only [map_append, map_cons] at hnodup
    exact (nodup_cons.mp (nodup_append.mp hnodup).2.1).1
  rw [ofList, foldl_append, foldl_cons,
    get?_foldl_insert after _ _ hafter, get?_insert, if_pos rfl]

theorem mem_ofList (hnodup : (entries.map (·.1)).Nodup) :
    entry ∈ ofList entries ↔ entry ∈ entries := by
  constructor
  · exact mem_of_mem_ofList
  · intro h
    apply mem_of_get?
    rw [get?_ofList_of_nodup hnodup h]

theorem perm_ofList (hnodup : (entries.map (·.1)).Nodup) : (ofList entries).Perm entries := by
  rw [perm_ext_iff_of_nodup]
  · exact fun entry => mem_ofList hnodup
  · exact List.Nodup.of_map _ ((ordered_ofList entries).imp fun h => h.ne)
  · exact hnodup.of_map

/-! ## Two tables together -/

theorem get?_orElse (first second : Table α) (name : String) : get? (orElse first second) name =
      (get? first name).or (get? second name) := by
  unfold orElse
  induction second generalizing first with
  | nil => simp
  | cons entry second ih =>
    rw [foldl_cons, ih, get?_cons]
    by_cases hcontains : contains first entry.1 = true
    · rw [if_pos hcontains]
      by_cases hname : entry.1 = name
      · obtain ⟨value, hvalue⟩ := Option.isSome_iff_exists.mp hcontains
        simp [← hname, hvalue]
      · rw [if_neg hname]
    · rw [if_neg hcontains, get?_insert]
      by_cases hname : entry.1 = name
      · have hnone : get? first name = none := by simpa [contains, hname] using hcontains
        simp [hname, hnone]
      · rw [if_neg hname, if_neg hname]

theorem get?_foldl_orElse {ι : Type} (table : ι → Table α) (items : List ι)
    (start : Table α) (name : String) :
    get? (items.foldl (fun found item => orElse found (table item)) start) name =
      (get? start name).or (items.findSome? fun item => get? (table item) name) := by
  induction items generalizing start with
  | nil => simp
  | cons item items ih =>
    rw [foldl_cons, ih, get?_orElse, findSome?_cons, Option.or_assoc]
    cases get? (table item) name with
    | none | some => rfl

theorem ordered_orElse (h : Ordered first) (second : Table α) : Ordered (orElse first second) := by
  unfold orElse
  induction second generalizing first with
  | nil => exact h
  | cons entry second ih =>
    rw [foldl_cons]
    split
    · exact ih h
    · exact ih (ordered_insert h _ _)

theorem ordered_override (h : Ordered first) (second : Table α) : Ordered (override first second) :=
  ordered_foldl_insert second h

theorem get?_override (first : Table α) (h : Ordered second) (name : String) :
    get? (override first second) name = (get? second name).or (get? first name) := by
  unfold override
  induction second generalizing first with
  | nil => rfl
  | cons entry second ih =>
    obtain ⟨hless, hsecond⟩ := (ordered_cons entry second).mp h
    rw [foldl_cons, ih _ hsecond, get?_insert, get?_cons]
    by_cases hname : entry.1 = name
    · have hnone : get? second name = none := by
        rw [get?_eq_none_iff]
        intro hmem
        exact absurd (hless name hmem) (by rw [hname]; exact lt_irrefl _)
      simp [hname, hnone]
    · rw [if_neg hname, if_neg hname]

theorem mapValues_override (f : α → β) (first second : Table α) :
    mapValues f (override first second) = override (mapValues f first) (mapValues f second) :=
  mapValues_foldl_insert f second first

/-! ## Equality -/

theorem eq_of_get? (hfirst : Ordered first) (hsecond : Ordered second)
    (h : ∀ name, get? first name = get? second name) : first = second := by
  have hmem : ∀ entry, entry ∈ first ↔ entry ∈ second := by
    intro entry
    constructor
    · intro hentry
      exact mem_of_get? ((h _).symm.trans (get?_of_mem hfirst hentry))
    · intro hentry
      exact mem_of_get? ((h _).trans (get?_of_mem hsecond hentry))
  have hnodup : ∀ {table : Table α}, Ordered table → table.Nodup := by
    intro table hordered
    exact List.Nodup.of_map _ (hordered.imp fun hlt => hlt.ne)
  have hperm : first.Perm second :=
    (perm_ext_iff_of_nodup (hnodup hfirst) (hnodup hsecond)).mpr hmem
  have hpairs : ∀ {table : Table α}, Ordered table →
      table.Pairwise fun left right => left.1 < right.1 := by
    intro table hordered
    exact pairwise_map.mp hordered
  exact hperm.eq_of_pairwise (fun _ _ _ _ hlt hgt => absurd (hlt.trans hgt) (lt_irrefl _))
    (hpairs hfirst) (hpairs hsecond)

end Sml.Table
