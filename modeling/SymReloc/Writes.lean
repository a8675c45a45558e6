import Mathlib.Data.List.Basic
import Mathlib.Data.List.Induction
import Mathlib.Logic.Function.Basic
import SymReloc.Copies

/-!
# Sequences of cell writes

A worker's effect on a memory is a list of writes of whole cells.  What such a list
leaves in a cell is the last value written there, so lists with the same writes of
every cell, in any order between cells, leave the same memory.  Workers whose writes
lie apart leave the same memory however their writes are interleaved.
-/

namespace SymReloc.Writes

structure Write (α : Type) where
  cell : Int
  value : α
deriving DecidableEq, Repr

variable {α β : Type} {writes writes' : List (Write α)} {cell : Int} {memory : Memory α}

def run (writes : List (Write α)) (memory : Memory α) : Memory α :=
  writes.foldl (fun memory write => Function.update memory write.cell write.value) memory

/-- The writes of one cell, in order. -/
def on (cell : Int) (writes : List (Write α)) : List (Write α) :=
  writes.filter fun write => write.cell = cell

/-- The value of the last write of a cell. -/
def last (writes : List (Write α)) (cell : Int) : Option α :=
  (on cell writes).getLast?.map Write.value

@[simp] theorem run_nil (memory : Memory α) : run [] memory = memory := rfl

theorem run_append (writes writes' : List (Write α)) (memory : Memory α) :
    run (writes ++ writes') memory = run writes' (run writes memory) := List.foldl_append

theorem on_append (writes writes' : List (Write α)) (cell : Int) :
    on cell (writes ++ writes') = on cell writes ++ on cell writes' := List.filter_append _ _

theorem last_append (writes writes' : List (Write α)) (cell : Int) :
    last (writes ++ writes') cell = (last writes' cell).or (last writes cell) := by
  rw [last, on_append, List.getLast?_append, last, last]
  cases (on cell writes').getLast? <;> rfl

theorem last_singleton (write : Write α) (cell : Int) :
    last [write] cell = if write.cell = cell then some write.value else none := by
  by_cases h : write.cell = cell <;> simp [last, on, h]

theorem last_eq_none : last writes cell = none ↔ ∀ write ∈ writes, write.cell ≠ cell := by
  simp [last, on]

theorem exists_of_last {value : α} (h : last writes cell = some value) :
    ∃ write ∈ writes, write.cell = cell ∧ write.value = value := by
  rw [last, Option.map_eq_some_iff] at h
  obtain ⟨write, hlast, rfl⟩ := h
  have hmem := List.mem_of_getLast? hlast
  rw [on, List.mem_filter, decide_eq_true_eq] at hmem
  exact ⟨write, hmem.1, hmem.2, rfl⟩

/-- A cell holds what was last written there. -/
theorem run_apply (writes : List (Write α)) (memory : Memory α) (cell : Int) :
    run writes memory cell = (last writes cell).getD (memory cell) := by
  induction writes generalizing memory with
  | nil => rfl
  | cons write writes ih =>
      have hfirst : last (write :: writes) cell = (last writes cell).or (last [write] cell) :=
        last_append [write] writes cell
      have hstep : run (write :: writes) memory =
          run writes (Function.update memory write.cell write.value) := rfl
      rw [hstep, ih, hfirst, last_singleton]
      cases last writes cell with
      | some value => rfl
      | none =>
          by_cases h : write.cell = cell
          · subst h
            simp
          · simp [h, Function.update_of_ne (Ne.symm h)]

theorem run_congr (h : ∀ cell, last writes cell = last writes' cell) :
    run writes memory = run writes' memory := by
  funext cell
  rw [run_apply, run_apply, h]

theorem last_eq_of_on (h : on cell writes = on cell writes') :
    last writes cell = last writes' cell := by
  rw [last, h, last]

/-- Two lists with the same writes leave the same when no two of them share a cell. -/
theorem last_eq_of_mem (hmem : ∀ write, write ∈ writes ↔ write ∈ writes')
    (hone : ∀ x ∈ writes, ∀ y ∈ writes, x.cell = y.cell → x = y) (cell : Int) :
    last writes cell = last writes' cell := by
  cases h : last writes cell with
  | none =>
      have hnone : last writes' cell = none := last_eq_none.mpr fun write hwrite =>
        last_eq_none.mp h write ((hmem write).mpr hwrite)
      rw [hnone]
  | some value =>
      obtain ⟨write, hwrite, hcell, rfl⟩ := exists_of_last h
      cases h' : last writes' cell with
      | none => exact absurd hcell (last_eq_none.mp h' write ((hmem write).mp hwrite))
      | some value' =>
          obtain ⟨other, hother, hcell', rfl⟩ := exists_of_last h'
          rw [hone write hwrite other ((hmem other).mpr hother) (hcell.trans hcell'.symm)]

/-- Writes whose values are made from others' at the same cells. -/
theorem last_map_value (make : Int → β → α) (writes : List (Write β)) (cell : Int) :
    last (writes.map fun write => ⟨write.cell, make write.cell write.value⟩) cell =
      (last writes cell).map (make cell) := by
  induction writes with
  | nil => rfl
  | cons write writes ih =>
      have hleft := last_append [(⟨write.cell, make write.cell write.value⟩ : Write α)]
        (writes.map fun write => ⟨write.cell, make write.cell write.value⟩) cell
      have hright := last_append [write] writes cell
      rw [List.singleton_append] at hleft hright
      rw [List.map_cons, hleft, hright, ih, last_singleton, last_singleton]
      cases last writes cell with
      | some value => rfl
      | none =>
          by_cases h : write.cell = cell
          · subst h
            simp
          · simp [h]

/-! ### Copies as writes -/

/-- The writes of a copy, a byte at a time. -/
def ofCopy (source : Memory α) (copy : ByteCopy) : List (Write α) :=
  (List.range copy.bytes).map fun k : Nat =>
    { cell := copy.dst + k, value := source (copy.src + k) }

theorem mem_ofCopy {source : Memory α} {copy : ByteCopy} {write : Write α} :
    write ∈ ofCopy source copy ↔ ∃ s, copy.Moves write.cell s ∧ write.value = source s := by
  simp only [ofCopy, List.mem_map, List.mem_range]
  constructor
  · intro h
    obtain ⟨k, hk, rfl⟩ := h
    exact ⟨copy.src + k, ⟨k, by omega, by omega, rfl, rfl⟩, rfl⟩
  · intro h
    obtain ⟨s, ⟨j, hj, hlt, hcell, rfl⟩, hvalue⟩ := h
    refine ⟨j.toNat, by omega, ?_⟩
    rw [Int.toNat_of_nonneg hj, ← hcell, ← hvalue]

/-- Writes of the bytes that copies move leave what the copies leave. -/
theorem run_eq_runCopies {source : Memory α} {copies : List ByteCopy}
    (hfun : Functional (Moves copies))
    (h : ∀ write, write ∈ writes ↔ ∃ s, Moves copies write.cell s ∧ write.value = source s) :
    run writes memory = runCopies source copies memory := by
  funext cell
  rw [run_apply]
  cases hlast : last writes cell with
  | none =>
      have hnone : ∀ s, ¬ Moves copies cell s := fun s hs =>
        last_eq_none.mp hlast ⟨cell, source s⟩ ((h _).mpr ⟨s, hs, rfl⟩) rfl
      exact (runCopies_of_not_moves hnone).symm
  | some value =>
      obtain ⟨write, hwrite, rfl, rfl⟩ := exists_of_last hlast
      obtain ⟨s, hmoves, hvalue⟩ := (h write).mp hwrite
      rw [runCopies_of_moves hfun hmoves, Option.getD_some, hvalue]

/-- The writes of copies, one copy after the other. -/
def ofCopies (source : Memory α) (copies : List ByteCopy) : List (Write α) :=
  copies.flatMap (ofCopy source)

theorem mem_ofCopies {source : Memory α} {copies : List ByteCopy} {write : Write α} :
    write ∈ ofCopies source copies ↔ ∃ s, Moves copies write.cell s ∧ write.value = source s := by
  simp only [ofCopies, List.mem_flatMap, mem_ofCopy, Moves]
  constructor
  · intro h
    obtain ⟨copy, hcopy, s, hmoves, hvalue⟩ := h
    exact ⟨s, ⟨copy, hcopy, hmoves⟩, hvalue⟩
  · intro h
    obtain ⟨s, ⟨copy, hcopy, hmoves⟩, hvalue⟩ := h
    exact ⟨copy, hcopy, s, hmoves, hvalue⟩

theorem functional_single (copy : ByteCopy) : Functional (Moves [copy]) := by
  intro d s s' hs hs'
  simp only [moves_cons, moves_nil, or_false, ByteCopy.Moves] at hs hs'
  obtain ⟨j, -, -, hd, rfl⟩ := hs
  obtain ⟨j', -, -, hd', rfl⟩ := hs'
  omega

/-- Copies a byte at a time leave what they leave one by one. -/
theorem run_ofCopies (source : Memory α) (copies : List ByteCopy) (memory : Memory α) :
    run (ofCopies source copies) memory = runCopies source copies memory := by
  induction copies generalizing memory with
  | nil => rfl
  | cons copy rest ih =>
      have hone : run (ofCopy source copy) memory = runCopies source [copy] memory := by
        refine run_eq_runCopies (functional_single copy) fun write => ?_
        rw [mem_ofCopy]
        simp only [moves_cons, moves_nil, or_false]
      rw [ofCopies, List.flatMap_cons, run_append, hone]
      exact ih _

/-! ### Moving the base -/

def Write.rebase (base : Int) (write : Write α) : Write α :=
  { write with cell := write.cell - base }

theorem last_rebase (writes : List (Write α)) (base cell : Int) :
    last (writes.map (Write.rebase base)) cell = last writes (cell + base) := by
  have hcell : ∀ write : Write α,
      decide ((write.rebase base).cell = cell) = decide (write.cell = cell + base) := by
    intro write
    have hiff : (write.rebase base).cell = cell ↔ write.cell = cell + base := by
      simp only [Write.rebase]
      omega
    simp only [hiff]
  simp only [last, on, List.filter_map, Function.comp_def, hcell, List.getLast?_map,
    Option.map_map]
  rfl

/-- The writes of one cell when at most one list has any. -/
theorem on_flatten_of_only {lists : List (List (Write α))} {k : Nat} {only : List (Write α)}
    (hk : lists[k]? = some only)
    (hothers : ∀ (j : Nat) (other : List (Write α)), lists[j]? = some other → j ≠ k →
      on cell other = []) : on cell lists.flatten = on cell only := by
  induction lists generalizing k with
  | nil => simp at hk
  | cons first rest ih =>
      rw [List.flatten_cons, on_append]
      cases k with
      | zero =>
          obtain rfl : first = only := by simpa using hk
          have hrest : on cell rest.flatten = [] := by
            rw [on, List.filter_flatten, List.flatten_eq_nil_iff]
            intro filtered hmem
            obtain ⟨other, hother, rfl⟩ := List.mem_map.mp hmem
            obtain ⟨j, hj⟩ := List.mem_iff_getElem?.mp hother
            exact hothers (j + 1) other hj (by omega)
          rw [hrest, List.append_nil]
      | succ k =>
          have hfirst : on cell first = [] := hothers 0 first rfl (by omega)
          rw [hfirst, List.nil_append]
          exact ih hk fun j other hj hne => hothers (j + 1) other hj (by omega)

/-- Lists that agree on a cell one by one agree on it together. -/
theorem last_flatMap_congr {ι : Type} {values : List ι} {body body' : ι → List (Write α)}
    (h : ∀ value ∈ values, last (body value) cell = last (body' value) cell) :
    last (values.flatMap body) cell = last (values.flatMap body') cell := by
  induction values with
  | nil => rfl
  | cons value rest ih =>
      rw [List.forall_mem_cons] at h
      rw [List.flatMap_cons, List.flatMap_cons, last_append, last_append, h.1, ih h.2]

/-! ### Interleavings -/

/-- A history of tagged entries in which every worker's entries are its list. -/
def Interleaves (lists : List (List β)) (history : List (Nat × β)) : Prop :=
  ∀ k : Nat, (history.filter fun entry => entry.1 = k).map Prod.snd = lists.getD k []

/-- No two lists write one cell. -/
def Apart (lists : List (List (Write α))) : Prop :=
  lists.Pairwise fun left right => ∀ x ∈ left, ∀ y ∈ right, x.cell ≠ y.cell

variable {lists : List (List (Write α))} {history : List (Nat × Write α)}

theorem Interleaves.mem (h : Interleaves lists history) {k : Nat} {write : Write α}
    (hmem : (k, write) ∈ history) : ∃ list, lists[k]? = some list ∧ write ∈ list := by
  have hfiltered : write ∈ (history.filter fun entry => entry.1 = k).map Prod.snd := by
    simp [hmem]
  rw [h k, List.getD_eq_getElem?_getD] at hfiltered
  cases hlist : lists[k]? with
  | none => simp [hlist] at hfiltered
  | some list => exact ⟨list, rfl, by simpa [hlist] using hfiltered⟩

theorem Apart.ne (h : Apart lists) {j k : Nat} {left right : List (Write α)}
    (hj : lists[j]? = some left) (hk : lists[k]? = some right) (hne : j ≠ k) {x y : Write α}
    (hx : x ∈ left) (hy : y ∈ right) : x.cell ≠ y.cell := by
  obtain ⟨hjlt, rfl⟩ := List.getElem?_eq_some_iff.mp hj
  obtain ⟨hklt, rfl⟩ := List.getElem?_eq_some_iff.mp hk
  rcases Nat.lt_or_gt_of_ne hne with hlt | hgt
  · exact List.pairwise_iff_getElem.mp h j k hjlt hklt hlt x hx y hy
  · exact (List.pairwise_iff_getElem.mp h k j hklt hjlt hgt y hy x hx).symm

theorem on_interleaved (h : Interleaves lists history) (hapart : Apart lists) (cell : Int) :
    on cell (history.map Prod.snd) = on cell lists.flatten := by
  by_cases hany : ∃ (k : Nat) (list : List (Write α)),
      lists[k]? = some list ∧ on cell list ≠ []
  · obtain ⟨k, list, hk, hlist⟩ := hany
    obtain ⟨write, hwrite⟩ := List.exists_mem_of_ne_nil _ hlist
    rw [on, List.mem_filter, decide_eq_true_eq] at hwrite
    rw [on_flatten_of_only hk fun j other hj hne => ?_]
    · -- every write of the cell in the history is worker `k`'s
      have htags : history.filter (fun entry => decide (entry.2.cell = cell)) =
          (history.filter fun entry => entry.1 = k).filter
            fun entry => decide (entry.2.cell = cell) := by
        rw [List.filter_filter]
        refine List.filter_congr fun entry hentry => ?_
        by_cases hcell : entry.2.cell = cell
        · obtain ⟨other, hother, hmem⟩ := h.mem (show (entry.1, entry.2) ∈ history from hentry)
          have htag : entry.1 = k := by
            by_contra hne
            exact hapart.ne hother hk hne hmem hwrite.1 (hcell.trans hwrite.2.symm)
          simp [hcell, htag]
        · simp [hcell]
      have hk' := h k
      rw [List.getD_eq_getElem?_getD, hk, Option.getD_some] at hk'
      rw [on, List.filter_map, Function.comp_def, htags, on, ← hk', List.filter_map]
      rfl
    · rw [on, List.filter_eq_nil_iff]
      intro other' hmem hcell
      rw [decide_eq_true_eq] at hcell
      exact hapart.ne hj hk hne hmem hwrite.1 (hcell.trans hwrite.2.symm)
  · have hnone : ∀ list ∈ lists, ∀ write ∈ list, write.cell ≠ cell := by
      intro list hlist write hwrite hcell
      obtain ⟨k, hk⟩ := List.mem_iff_getElem?.mp hlist
      refine hany ⟨k, list, hk, List.ne_nil_of_mem (a := write) ?_⟩
      rw [on, List.mem_filter]
      exact ⟨hwrite, by simpa using hcell⟩
    have hleft : on cell (history.map Prod.snd) = [] := by
      rw [on, List.filter_eq_nil_iff]
      intro write hwrite hcell
      obtain ⟨⟨k, write⟩, hmem, rfl⟩ := List.mem_map.mp hwrite
      obtain ⟨list, hk, hlist⟩ := h.mem hmem
      exact hnone list (List.mem_of_getElem? hk) write hlist (by simpa using hcell)
    have hright : on cell lists.flatten = [] := by
      rw [on, List.filter_eq_nil_iff]
      intro write hwrite hcell
      obtain ⟨list, hlist, hmem⟩ := List.mem_flatten.mp hwrite
      exact hnone list hlist write hmem (by simpa using hcell)
    rw [hleft, hright]

/-- The order of lists that lie apart does not matter. -/
theorem last_flatten_of_perm {lists' : List (List (Write α))} (hperm : lists.Perm lists')
    (hapart : Apart lists) (cell : Int) :
    last lists.flatten cell = last lists'.flatten cell := by
  have hsymm : ∀ {left right : List (Write α)}, (∀ x ∈ left, ∀ y ∈ right, x.cell ≠ y.cell) →
      ∀ x ∈ right, ∀ y ∈ left, x.cell ≠ y.cell := fun h x hx y hy => (h y hy x hx).symm
  induction hperm with
  | nil => rfl
  | cons list _ ih =>
      rw [List.flatten_cons, List.flatten_cons, last_append, last_append,
        ih (List.pairwise_cons.mp hapart).2]
  | swap left right rest =>
      have hne : ∀ x ∈ right, ∀ y ∈ left, x.cell ≠ y.cell :=
        (List.pairwise_cons.mp hapart).1 left List.mem_cons_self
      have hnone : last left cell = none ∨ last right cell = none := by
        by_cases hleft : last left cell = none
        · exact .inl hleft
        · obtain ⟨value, hvalue⟩ := Option.ne_none_iff_exists'.mp hleft
          obtain ⟨y, hy, hcell, -⟩ := exists_of_last hvalue
          refine .inr (last_eq_none.mpr fun x hx hx' => hne x hx y hy ?_)
          rw [hx', hcell]
      simp only [List.flatten_cons, last_append]
      rcases hnone with h | h <;> simp [h]
  | trans hfirst _ ih ih' =>
      exact (ih hapart).trans (ih' ((hfirst.pairwise_iff hsymm).mp hapart))

/-- Lists can always be interleaved. -/
theorem exists_interleaving (lists : List (List β)) : ∃ history, Interleaves lists history := by
  induction lists using List.reverseRecOn with
  | nil => exact ⟨[], fun k => rfl⟩
  | append_singleton lists list ih =>
      obtain ⟨history, hhistory⟩ := ih
      refine ⟨history ++ list.map fun value => (lists.length, value), fun k => ?_⟩
      rw [List.filter_append, List.map_append, hhistory k]
      by_cases hk : k = lists.length
      · subst hk
        simp [List.filter_map, Function.comp_def, List.getD_eq_getElem?_getD]
      · have hnone : (list.map fun value => (lists.length, value)).filter
            (fun entry => decide (entry.1 = k)) = [] := by
          rw [List.filter_eq_nil_iff]
          intro entry hentry
          obtain ⟨value, -, rfl⟩ := List.mem_map.mp hentry
          simpa using Ne.symm hk
        rw [hnone, List.map_nil, List.append_nil, List.getD_eq_getElem?_getD,
          List.getD_eq_getElem?_getD, List.getElem?_append]
        by_cases hlt : k < lists.length
        · rw [if_pos hlt]
        · rw [if_neg hlt, List.getElem?_eq_none (by omega), List.getElem?_eq_none]
          rw [List.length_singleton]
          omega

/-- Workers whose writes lie apart leave what they leave one after the other. -/
theorem run_interleaved (h : Interleaves lists history) (hapart : Apart lists) :
    run (history.map Prod.snd) memory = run lists.flatten memory :=
  run_congr fun cell => last_eq_of_on (on_interleaved h hapart cell)

/-- One worker after the other is an interleaving. -/
theorem interleaves_single (list : List β) :
    Interleaves [list] (list.map fun value => (0, value)) := by
  intro k
  cases k with
  | zero => simp [List.filter_map, Function.comp_def]
  | succ k => simp [List.filter_map, Function.comp_def]

end SymReloc.Writes
