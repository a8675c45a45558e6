import Mathlib.Algebra.BigOperators.Group.List.Basic
import Mathlib.Algebra.Order.Ring.Int
import Mathlib.Data.List.Nodup

/-!
# Ledgers

A list of entries, each under a number of its own, and the totals of what the entries
are charged.  Changing the entry with a number changes a total by the difference that
entry makes, and striking it out lowers every total.
-/

namespace SymReloc

universe u

namespace Ledger

variable {ε : Type u} (number : ε → Nat)

/-- Change the entry with a number. -/
def amend (entries : List ε) (n : Nat) (change : ε → ε) : List ε :=
  entries.map fun e => if number e = n then change e else e

/-- Take out the entry with a number. -/
def strike (entries : List ε) (n : Nat) : List ε := entries.filter fun e => number e ≠ n

/-- The total of a charge. -/
def total (charge : ε → Nat) (entries : List ε) : Nat := (entries.map charge).sum

variable {number} {entries : List ε} {n : Nat} {change : ε → ε} {charge : ε → Nat} {e : ε}

theorem mem_amend : e ∈ amend number entries n change ↔
    ∃ d ∈ entries, (if number d = n then change d else d) = e := by
  simp [amend]

theorem mem_strike : e ∈ strike number entries n ↔ e ∈ entries ∧ number e ≠ n := by
  simp [strike]

@[simp] theorem total_nil : total charge [] = 0 := rfl

@[simp] theorem total_cons {d : ε} {rest : List ε} :
    total charge (d :: rest) = charge d + total charge rest := by
  simp [total]

theorem total_append {left right : List ε} :
    total charge (left ++ right) = total charge left + total charge right := by
  simp [total]

/-- What a change keeps of the entry stays as it is. -/
theorem map_amend_of_eq {β : Type*} {value : ε → β}
    (h : ∀ e ∈ entries, number e = n → value (change e) = value e) :
    (amend number entries n change).map value = entries.map value := by
  rw [amend, List.map_map]
  refine List.map_congr_left fun e he => ?_
  simp only [Function.comp_apply]
  split
  · exact h e he ‹_›
  · rfl

/-- A change that keeps a charge keeps its total. -/
theorem total_amend_of_eq (h : ∀ e ∈ entries, number e = n → charge (change e) = charge e) :
    total charge (amend number entries n change) = total charge entries := by
  rw [total, map_amend_of_eq h, total]

/-- A number that no entry has changes nothing. -/
theorem amend_of_forall_ne (h : ∀ e ∈ entries, number e ≠ n) :
    amend number entries n change = entries := by
  unfold amend
  rw [List.map_congr_left (g := id) (fun e he => by simp [h e he]), List.map_id]

/-- Changing one entry moves the total by what the entry's own charge moves. -/
theorem total_amend (hunique : (entries.map number).Nodup) (he : e ∈ entries)
    (hn : number e = n) :
    total charge (amend number entries n change) + charge e =
      total charge entries + charge (change e) := by
  induction entries with
  | nil => simp at he
  | cons d rest ih =>
    simp only [List.map_cons, List.nodup_cons] at hunique
    by_cases hd : number d = n
    · have hrest : ∀ e ∈ rest, number e ≠ n := by
        intro e he heq
        exact hunique.1 (hd ▸ heq ▸ List.mem_map_of_mem he)
      have hde : e = d := by
        rcases List.mem_cons.mp he with heq | hmem
        · exact heq
        · exact absurd hn (hrest e hmem)
      subst hde
      have hamend : amend number (e :: rest) n change = change e :: rest := by
        rw [amend, List.map_cons, if_pos hd]
        exact congrArg _ (amend_of_forall_ne hrest)
      rw [hamend, total_cons, total_cons]
      omega
    · have hmem : e ∈ rest := by
        rcases List.mem_cons.mp he with heq | hmem
        · exact absurd (heq ▸ hn) hd
        · exact hmem
      have hrest := ih hunique.2 hmem
      have hamend : amend number (d :: rest) n change = d :: amend number rest n change := by
        rw [amend, List.map_cons, if_neg hd]
        rfl
      rw [hamend, total_cons, total_cons]
      omega

theorem total_strike_le : total charge (strike number entries n) ≤ total charge entries := by
  induction entries with
  | nil => exact Nat.le_refl _
  | cons d rest ih =>
    simp only [strike, List.filter_cons] at ih ⊢
    split
    · simpa using ih
    · rw [total_cons]
      omega

theorem charge_le_total (he : e ∈ entries) : charge e ≤ total charge entries := by
  induction entries with
  | nil => simp at he
  | cons d rest ih =>
    rw [total_cons]
    rcases List.mem_cons.mp he with heq | hmem
    · subst heq
      omega
    · have := ih hmem
      omega

theorem nodup_strike (h : (entries.map number).Nodup) :
    ((strike number entries n).map number).Nodup :=
  h.sublist (List.Sublist.map _ List.filter_sublist)

/-- Two entries with one number are one entry. -/
theorem eq_of_number_eq {d : ε} (hunique : (entries.map number).Nodup) (hd : d ∈ entries)
    (he : e ∈ entries) (h : number d = number e) : d = e :=
  List.inj_on_of_nodup_map hunique hd he h

end Ledger

end SymReloc
