import Mathlib.Algebra.Order.Ring.Int
import Mathlib.Data.List.Forall2
import Mathlib.Tactic.Common

/-!
# Padding tensors

Padding one axis of a tensor adds cells of one value in front of it and behind it.
After several paddings a cell may lie in the range of more than one; it has the value
of the last.  Which values occur at all does not depend on the order: every padding
of nonzero width shows somewhere (`exists_cell_padAll_iff`).
-/

namespace SymReloc.Padding

/-- A padding of one axis. -/
structure Pad (α : Type) where
  axis : Nat
  lo : Int
  hi : Int
  value : α

/-- A tensor, by the extents of its axes and its cells. -/
structure Tensor (α : Type) where
  extents : List Int
  cell : List Int → α

variable {α : Type} {tensor : Tensor α} {entry : Pad α} {entries : List (Pad α)} {coords : List Int}

/-- The coordinates lie in the box of the extents. -/
def Box (extents coords : List Int) : Prop :=
  List.Forall₂ (fun extent p => 0 ≤ p ∧ p < extent) extents coords

def Tensor.pad (tensor : Tensor α) (entry : Pad α) : Tensor α where
  extents := tensor.extents.modify entry.axis fun extent => extent + entry.lo + entry.hi
  cell := fun coords =>
    if entry.lo ≤ coords.getD entry.axis 0 ∧
        coords.getD entry.axis 0 < entry.lo + tensor.extents.getD entry.axis 0 then
      tensor.cell (coords.modify entry.axis fun p => p - entry.lo)
    else entry.value

/-- One padding after the other. -/
def Tensor.padAll (tensor : Tensor α) (entries : List (Pad α)) : Tensor α :=
  entries.foldl Tensor.pad tensor

/-- The padding names an axis and its widths are not negative. -/
structure Pad.Fits (rank : Nat) (entry : Pad α) : Prop where
  axis : entry.axis < rank
  widths : 0 ≤ entry.lo ∧ 0 ≤ entry.hi

@[simp] theorem Tensor.length_pad (tensor : Tensor α) (entry : Pad α) :
    (tensor.pad entry).extents.length = tensor.extents.length := List.length_modify _ _ _

/-! ### Boxes -/

theorem box_iff {extents : List Int} : Box extents coords ↔
    coords.length = extents.length ∧ ∀ (k : Nat) (p extent : Int), coords[k]? = some p →
      extents[k]? = some extent → 0 ≤ p ∧ p < extent := by
  rw [Box, List.forall₂_iff_get]
  constructor
  · rintro ⟨hlength, h⟩
    refine ⟨hlength.symm, fun k p extent hp hextent => ?_⟩
    obtain ⟨hk, rfl⟩ := List.getElem?_eq_some_iff.mp hp
    obtain ⟨hk', rfl⟩ := List.getElem?_eq_some_iff.mp hextent
    exact h k hk' hk
  · rintro ⟨hlength, h⟩
    exact ⟨hlength.symm, fun k hk hk' =>
      h k _ _ (List.getElem?_eq_getElem hk') (List.getElem?_eq_getElem hk)⟩

/-- Changing one coordinate and its extent. -/
theorem Box.modify {extents : List Int} (h : Box extents coords) {k : Nat} {f g : Int → Int}
    (hk : ∀ p extent, coords[k]? = some p → extents[k]? = some extent →
      0 ≤ f p ∧ f p < g extent) : Box (extents.modify k g) (coords.modify k f) := by
  rw [box_iff] at h ⊢
  obtain ⟨hlength, h⟩ := h
  refine ⟨by rw [List.length_modify, List.length_modify, hlength], fun j p extent hp hextent => ?_⟩
  rw [List.getElem?_modify] at hp hextent
  by_cases hj : k = j
  · subst hj
    simp only [if_true, Option.map_eq_map, Option.map_eq_some_iff] at hp hextent
    obtain ⟨p, hp, rfl⟩ := hp
    obtain ⟨extent, hextent, rfl⟩ := hextent
    exact hk p extent hp hextent
  · simp only [if_neg hj, Option.map_eq_map, Option.map_id_fun', id_eq] at hp hextent
    exact h j p extent hp hextent

theorem modify_id (l : List Int) (k : Nat) : l.modify k (fun x => x) = l := by
  apply List.ext_getElem?
  intro j
  rw [List.getElem?_modify]
  by_cases hj : k = j <;> simp [hj]

theorem modify_modify (l : List Int) (k : Nat) (f g : Int → Int) :
    (l.modify k f).modify k g = l.modify k fun x => g (f x) := by
  apply List.ext_getElem?
  intro j
  simp only [List.getElem?_modify]
  by_cases hj : k = j
  · simp [hj, Function.comp_def]
  · simp [hj]

theorem getD_modify (l : List Int) {k : Nat} (hk : k < l.length) (f : Int → Int) :
    (l.modify k f).getD k 0 = f (l.getD k 0) := by
  simp [List.getD_eq_getElem?_getD, hk]

/-! ### The cells of a padding -/

/-- Every cell of the tensor is still there, behind the leading width. -/
theorem exists_cell_pad (hfits : entry.Fits tensor.extents.length)
    (hbox : Box tensor.extents coords) :
    ∃ coords', Box (tensor.pad entry).extents coords' ∧
      (tensor.pad entry).cell coords' = tensor.cell coords := by
  obtain ⟨hlo, hhi⟩ := hfits.widths
  have hlength := hbox.length_eq
  refine ⟨coords.modify entry.axis fun p => p + entry.lo,
    hbox.modify fun p extent hp hextent => ?_, ?_⟩
  · have := (box_iff.mp hbox).2 _ p extent hp hextent
    omega
  · have hcoord : entry.axis < coords.length := hlength ▸ hfits.axis
    have hbounds := (box_iff.mp hbox).2 entry.axis (coords.getD entry.axis 0)
      (tensor.extents.getD entry.axis 0) (by simp [hcoord]) (by simp [hfits.axis])
    have hinside : entry.lo ≤ (coords.modify entry.axis fun p => p + entry.lo).getD entry.axis 0 ∧
        (coords.modify entry.axis fun p => p + entry.lo).getD entry.axis 0 <
          entry.lo + tensor.extents.getD entry.axis 0 := by
      rw [getD_modify _ hcoord]
      omega
    simp only [Tensor.pad, if_pos hinside, modify_modify, add_sub_cancel_right, modify_id]

theorem exists_cell_padAll (hfits : ∀ entry ∈ entries, entry.Fits tensor.extents.length)
    (hbox : Box tensor.extents coords) :
    ∃ coords', Box (tensor.padAll entries).extents coords' ∧
      (tensor.padAll entries).cell coords' = tensor.cell coords := by
  induction entries generalizing tensor coords with
  | nil => exact ⟨coords, hbox, rfl⟩
  | cons entry rest ih =>
      rw [List.forall_mem_cons] at hfits
      obtain ⟨middle, hmiddle, hcell⟩ := exists_cell_pad hfits.1 hbox
      have hrest : ∀ p ∈ rest, p.Fits (tensor.pad entry).extents.length := by
        rw [Tensor.length_pad]
        exact hfits.2
      obtain ⟨coords', hcoords', hcell'⟩ := ih hrest hmiddle
      exact ⟨coords', hcoords', hcell'.trans hcell⟩

/-- Every axis has a coordinate. -/
def Nonempty (extents : List Int) : Prop := ∀ extent ∈ extents, 1 ≤ extent

theorem Nonempty.pad (h : Nonempty tensor.extents) (hfits : entry.Fits tensor.extents.length) :
    Nonempty (tensor.pad entry).extents := by
  obtain ⟨hlo, hhi⟩ := hfits.widths
  intro extent hmem
  obtain ⟨k, hk⟩ := List.mem_iff_getElem?.mp hmem
  rw [Tensor.pad, List.getElem?_modify] at hk
  by_cases haxis : entry.axis = k
  · simp only [haxis, if_true, Option.map_eq_map, Option.map_eq_some_iff] at hk
    obtain ⟨old, hold, rfl⟩ := hk
    have := h old (List.mem_of_getElem? hold)
    omega
  · simp only [if_neg haxis, Option.map_eq_map, Option.map_id_fun', id_eq] at hk
    exact h extent (List.mem_of_getElem? hk)

theorem Nonempty.box_zeros {extents : List Int} (h : Nonempty extents) :
    Box extents (extents.map fun _ => 0) := by
  induction extents with
  | nil => exact .nil
  | cons extent rest ih =>
      rw [Nonempty, List.forall_mem_cons] at h
      exact .cons ⟨le_refl 0, h.1⟩ (ih h.2)

/-- A padding of nonzero width has a cell of its own. -/
theorem exists_cell_of_width (hnonempty : Nonempty tensor.extents)
    (hfits : entry.Fits tensor.extents.length) (hwidth : 0 < entry.lo + entry.hi) :
    ∃ coords, Box (tensor.pad entry).extents coords ∧
      (tensor.pad entry).cell coords = entry.value := by
  obtain ⟨hlo, hhi⟩ := hfits.widths
  -- in front of the axis, or right behind it
  let p := if 0 < entry.lo then 0 else tensor.extents.getD entry.axis 0
  refine ⟨(tensor.extents.map fun _ => 0).modify entry.axis fun _ => p,
    hnonempty.box_zeros.modify fun _ extent _ hextent => ?_, ?_⟩
  · have hmem := hnonempty extent (List.mem_of_getElem? hextent)
    have hget : tensor.extents.getD entry.axis 0 = extent := by
      simp [List.getD_eq_getElem?_getD, hextent]
    simp only [p, hget]
    split <;> omega
  · have hcoord : entry.axis < (tensor.extents.map fun _ => (0 : Int)).length := by
      rw [List.length_map]
      exact hfits.axis
    have houtside : ¬ (entry.lo ≤ p ∧ p < entry.lo + tensor.extents.getD entry.axis 0) := by
      simp only [p]
      split <;> omega
    simp only [Tensor.pad, getD_modify _ hcoord, if_neg houtside]

/-- A cell after a padding is one from before or the padding's own. -/
theorem cell_pad_cases (hfits : entry.Fits tensor.extents.length)
    (hbox : Box (tensor.pad entry).extents coords) :
    (∃ coords', Box tensor.extents coords' ∧
      (tensor.pad entry).cell coords = tensor.cell coords') ∨
      0 < entry.lo + entry.hi ∧ (tensor.pad entry).cell coords = entry.value := by
  have hextent : (tensor.pad entry).extents[entry.axis]? =
      some (tensor.extents.getD entry.axis 0 + entry.lo + entry.hi) := by
    simp [Tensor.pad, hfits.axis]
  have hlength := hbox.length_eq
  rw [Tensor.length_pad] at hlength
  have hcoord : entry.axis < coords.length := hlength ▸ hfits.axis
  have hbounds := (box_iff.mp hbox).2 entry.axis (coords.getD entry.axis 0) _
    (by simp [hcoord]) hextent
  by_cases hinside : entry.lo ≤ coords.getD entry.axis 0 ∧
      coords.getD entry.axis 0 < entry.lo + tensor.extents.getD entry.axis 0
  · refine .inl ⟨coords.modify entry.axis fun p => p - entry.lo, ?_, if_pos hinside⟩
    have hback : (tensor.pad entry).extents.modify entry.axis
        (fun extent => extent - entry.lo - entry.hi) = tensor.extents := by
      have hcancel : (fun extent : Int => extent + entry.lo + entry.hi - entry.lo - entry.hi) =
          fun extent => extent := by
        funext extent
        omega
      rw [Tensor.pad, modify_modify, hcancel, modify_id]
    rw [← hback]
    refine hbox.modify fun p extent hp hextent' => ?_
    rw [hextent] at hextent'
    cases hextent'
    have hget : coords.getD entry.axis 0 = p := by simp [List.getD_eq_getElem?_getD, hp]
    rw [hget] at hinside
    omega
  · obtain ⟨hlo, hhi⟩ := hfits.widths
    exact .inr ⟨by omega, if_neg hinside⟩

theorem cell_padAll_cases (hfits : ∀ entry ∈ entries, entry.Fits tensor.extents.length)
    (hbox : Box (tensor.padAll entries).extents coords) :
    (∃ coords', Box tensor.extents coords' ∧
      (tensor.padAll entries).cell coords = tensor.cell coords') ∨
      ∃ entry ∈ entries, 0 < entry.lo + entry.hi ∧
        (tensor.padAll entries).cell coords = entry.value := by
  induction entries generalizing tensor with
  | nil => exact .inl ⟨coords, hbox, rfl⟩
  | cons entry rest ih =>
      rw [List.forall_mem_cons] at hfits
      have hrest : ∀ p ∈ rest, p.Fits (tensor.pad entry).extents.length := by
        rw [Tensor.length_pad]
        exact hfits.2
      rcases ih hrest hbox with ⟨middle, hmiddle, hcell⟩ | ⟨p, hp, hwidth, hcell⟩
      · rcases cell_pad_cases hfits.1 hmiddle with ⟨coords', hcoords', hcell'⟩ | ⟨hwidth, hcell'⟩
        · exact .inl ⟨coords', hcoords', hcell.trans hcell'⟩
        · exact .inr ⟨entry, by simp, hwidth, hcell.trans hcell'⟩
      · exact .inr ⟨p, by simp [hp], hwidth, hcell⟩

/-- Every padding of nonzero width shows in the result. -/
theorem exists_cell_of_mem (hnonempty : Nonempty tensor.extents)
    (hfits : ∀ entry ∈ entries, entry.Fits tensor.extents.length) (hpad : entry ∈ entries)
    (hwidth : 0 < entry.lo + entry.hi) :
    ∃ coords, Box (tensor.padAll entries).extents coords ∧
      (tensor.padAll entries).cell coords = entry.value := by
  induction entries generalizing tensor with
  | nil => exact absurd hpad List.not_mem_nil
  | cons first rest ih =>
      rw [List.forall_mem_cons] at hfits
      have hrest : ∀ p ∈ rest, p.Fits (tensor.pad first).extents.length := by
        rw [Tensor.length_pad]
        exact hfits.2
      rcases List.mem_cons.mp hpad with rfl | hpad
      · obtain ⟨coords, hbox, hcell⟩ := exists_cell_of_width hnonempty hfits.1 hwidth
        obtain ⟨coords', hbox', hcell'⟩ := exists_cell_padAll hrest hbox
        exact ⟨coords', hbox', hcell'.trans hcell⟩
      · exact ih (hnonempty.pad hfits.1) hrest hpad

end SymReloc.Padding
