import Mathlib.Data.List.Nodup

/-!
# Tables in order of use

A table is a list of keys with their values, the oldest first.  A key that is assigned keeps
its place, or comes last if it is new; `moveToEnd` makes it the newest, and `trim` drops the
oldest keys until the table is as long as it may be.
-/

namespace SymReloc.OrderedTable

universe u v

variable {κ : Type u} {ν : Type v}

def keys (table : List (κ × ν)) : List κ := table.map Prod.fst

/-- Drop the oldest entries of a table that is too long. -/
def trim (capacity : Nat) : List (κ × ν) → List (κ × ν)
  | [] => []
  | entry :: rest =>
      if capacity < (entry :: rest).length then trim capacity rest else entry :: rest

/-- The key that makes room for a new one. -/
def oldest (capacity : Nat) (table : List (κ × ν)) : Option κ :=
  if table.length < capacity then none else table.head?.map Prod.fst

section Lookup

variable [DecidableEq κ]

def get? : List (κ × ν) → κ → Option ν
  | [], _ => none
  | entry :: rest, key => if entry.1 = key then some entry.2 else get? rest key

def assign : List (κ × ν) → κ → ν → List (κ × ν)
  | [], key, value => [(key, value)]
  | entry :: rest, key, value =>
      if entry.1 = key then (key, value) :: rest else entry :: assign rest key value

def moveToEnd (table : List (κ × ν)) (key : κ) : List (κ × ν) :=
  (table.filter fun entry => entry.1 ≠ key) ++ table.filter fun entry => entry.1 = key

end Lookup

variable {table : List (κ × ν)} {key : κ} {value : ν} {capacity : Nat} {entry : κ × ν}

theorem mem_keys : key ∈ keys table ↔ ∃ value, (key, value) ∈ table := by
  simp [keys]

theorem keys_append (left right : List (κ × ν)) : keys (left ++ right) = keys left ++ keys right :=
  List.map_append

/-! ### Room for one more -/

theorem trim_of_le (h : table.length ≤ capacity) : trim capacity table = table := by
  cases table with
  | nil => rfl
  | cons entry rest =>
      rw [trim, if_neg (Nat.not_lt.mpr h)]

/-- A table that is full loses its oldest key to a new one. -/
theorem trim_append (key : κ) (value : ν) (hcapacity : 1 ≤ capacity)
    (hlength : table.length ≤ capacity) :
    (∀ old, old ∈ keys table → old ∈ keys (trim capacity (table ++ [(key, value)])) ∨
      oldest capacity table = some old) ∧
    key ∈ keys (trim capacity (table ++ [(key, value)])) ∧
    (trim capacity (table ++ [(key, value)])).Sublist (table ++ [(key, value)]) ∧
    (trim capacity (table ++ [(key, value)])).length ≤ capacity := by
  by_cases hroom : table.length < capacity
  · rw [trim_of_le (by rw [List.length_append]; exact hroom)]
    refine ⟨fun old hold => .inl ?_, ?_, List.Sublist.refl _, ?_⟩
    · rw [keys_append]
      exact List.mem_append_left _ hold
    · rw [keys_append]
      exact List.mem_append_right _ (List.mem_singleton_self key)
    · rw [List.length_append]
      exact hroom
  · cases table with
    | nil => exact absurd hcapacity hroom
    | cons first rest =>
        have hfull : rest.length + 1 = capacity := by
          rw [List.length_cons] at hroom hlength
          omega
        have htrim : trim capacity (first :: rest ++ [(key, value)]) = rest ++ [(key, value)] := by
          rw [List.cons_append, trim, if_pos]
          · exact trim_of_le (by rw [List.length_append, List.length_singleton]; omega)
          · rw [List.length_cons, List.length_append, List.length_singleton]
            omega
        rw [htrim]
        refine ⟨fun old hold => ?_, ?_, ?_, ?_⟩
        · rcases List.mem_cons.mp hold with rfl | hrest
          · exact .inr (if_neg hroom)
          · rw [keys_append]
            exact .inl (List.mem_append_left _ hrest)
        · rw [keys_append]
          exact List.mem_append_right _ (List.mem_singleton_self key)
        · exact List.sublist_cons_self first (rest ++ [(key, value)])
        · rw [List.length_append, List.length_singleton]
          omega

/-- The keys of a table that is in its bounds stay apart with one more, trimmed. -/
theorem nodup_trim (value : ν) (hcapacity : 1 ≤ capacity) (hlength : table.length ≤ capacity)
    (hnodup : (keys table).Nodup) (hkey : key ∉ keys table) :
    (keys (trim capacity (table ++ [(key, value)]))).Nodup := by
  obtain ⟨-, -, hsub, -⟩ := trim_append key value hcapacity hlength
  refine (hsub.map Prod.fst).nodup ?_
  rw [List.map_append, List.map_singleton, List.nodup_append]
  refine ⟨hnodup, List.nodup_singleton key, fun k hk k' hk' heq => ?_⟩
  rw [heq, List.mem_singleton.mp hk'] at hk
  exact hkey hk

theorem mem_of_oldest {old : κ} (h : oldest capacity table = some old) : old ∈ keys table := by
  unfold oldest at h
  split at h
  · cases h
  · obtain ⟨first, hfirst, rfl⟩ := Option.map_eq_some_iff.mp h
    exact List.mem_map_of_mem (List.mem_of_head? hfirst)

/-- The key that makes room is gone. -/
theorem oldest_notMem_trim {old : κ} (value : ν) (h : oldest capacity table = some old)
    (hlength : table.length ≤ capacity) (hnodup : (keys table).Nodup) (hne : old ≠ key) :
    old ∉ keys (trim capacity (table ++ [(key, value)])) := by
  unfold oldest at h
  split at h
  · cases h
  · rename_i hfull
    cases table with
    | nil => cases h
    | cons first rest =>
        cases h
        rw [List.length_cons] at hfull hlength
        have htrim : trim capacity (first :: rest ++ [(key, value)]) = rest ++ [(key, value)] := by
          rw [List.cons_append, trim, if_pos]
          · exact trim_of_le (by rw [List.length_append, List.length_singleton]; omega)
          · rw [List.length_cons, List.length_append, List.length_singleton]
            omega
        rw [htrim, keys_append, List.mem_append]
        intro hmem
        rcases hmem with hrest | hnew
        · exact (List.nodup_cons.mp hnodup).1 hrest
        · exact hne (List.mem_singleton.mp hnew)

section Lookup

variable [DecidableEq κ]

theorem mem_of_get? (h : get? table key = some value) : (key, value) ∈ table := by
  induction table with
  | nil => cases h
  | cons entry rest ih =>
      rw [get?] at h
      split at h
      · rename_i heq
        cases h
        exact heq ▸ List.mem_cons_self
      · exact List.mem_cons_of_mem _ (ih h)

theorem get?_eq_none : get? table key = none ↔ key ∉ keys table := by
  induction table with
  | nil => simp [get?, keys]
  | cons entry rest ih =>
      rw [get?]
      by_cases heq : entry.1 = key
      · simp [heq, keys]
      · rw [if_neg heq, ih]
        simp [keys, Ne.symm heq]

theorem assign_of_notMem (h : key ∉ keys table) :
    assign table key value = table ++ [(key, value)] := by
  induction table with
  | nil => rfl
  | cons entry rest ih =>
      have hne : entry.1 ≠ key := fun heq => h (heq ▸ List.mem_cons_self)
      have hrest : key ∉ keys rest := fun hmem => h (List.mem_cons_of_mem _ hmem)
      rw [assign, if_neg hne, ih hrest, List.cons_append]

theorem moveToEnd_perm (table : List (κ × ν)) (key : κ) : (moveToEnd table key).Perm table := by
  have h := List.filter_append_perm (fun entry : κ × ν => decide (entry.1 ≠ key)) table
  simpa [moveToEnd] using h

theorem keys_moveToEnd_perm (table : List (κ × ν)) (key : κ) :
    (keys (moveToEnd table key)).Perm (keys table) := (moveToEnd_perm table key).map Prod.fst

/-- The newest key is where it is to be moved. -/
theorem moveToEnd_append (h : key ∉ keys table) :
    moveToEnd (table ++ [(key, value)]) key = table ++ [(key, value)] := by
  have hne : ∀ entry ∈ table, entry.1 ≠ key := fun entry hmem heq =>
    h (heq ▸ List.mem_map_of_mem hmem)
  have hothers : table.filter (fun entry => entry.1 ≠ key) = table :=
    List.filter_eq_self.mpr fun entry hmem => decide_eq_true (hne entry hmem)
  have hnone : table.filter (fun entry => entry.1 = key) = [] :=
    List.filter_eq_nil_iff.mpr fun entry hmem => by simpa using hne entry hmem
  rw [moveToEnd, List.filter_append, List.filter_append, hothers, hnone]
  simp

end Lookup

end SymReloc.OrderedTable
