import SymReloc.PaddedView
import SymReloc.Walk

/-!
# The cells of a walk by their index

The walk of padded axes has one cell for each index of the destination, in row-major order
(`getElem?_walk`).  The cell at an index carries the value of every pad that the index lies in;
where it lies in none the cell reads where the view of the axes reads.
-/

namespace SymReloc.Walk

open RowMajor PaddedView

variable {α : Type} {axis : Axis α} {axes : List (Axis α)} {cell : Cell α} {index : List Int}

/-- The axis without its destination and its value. -/
def Axis.view (axis : Axis α) : ViewAxis :=
  match axis.pad with
  | none => ⟨axis.extent, axis.srcStride, 0, 0⟩
  | some pad => ⟨axis.extent, axis.srcStride, pad.lo, pad.hi⟩

theorem Axis.padded_view (axis : Axis α) : axis.view.padded = axis.padded := by
  unfold Axis.view Axis.padded ViewAxis.padded
  cases axis.pad with
  | none => rw [zero_add, add_zero]
  | some pad => rfl

theorem Axis.Proper.sound (h : axis.Proper) : axis.view.Sound := by
  obtain ⟨hextent, hpad⟩ := h
  unfold Axis.view
  cases hfound : axis.pad with
  | none => exact ⟨hextent, le_rfl, le_rfl⟩
  | some pad =>
      have hwidths := hpad pad hfound
      exact ⟨hextent, hwidths.1, hwidths.2⟩

theorem shape_view (axes : List (Axis α)) : shape (axes.map Axis.view) = axes.map Axis.padded := by
  rw [shape, List.map_map]
  exact List.map_congr_left fun axis _ => axis.padded_view

theorem positive_padded (h : Proper axes) : Positive (axes.map Axis.padded) := by
  rw [← shape_view]
  refine positive_shape fun view hview => ?_
  obtain ⟨axis, haxis, rfl⟩ := List.mem_map.mp hview
  exact (h axis haxis).sound

/-- The cell of a walk at an index. -/
structure Cell.At (axes : List (Axis α)) (index : List Int) (cell : Cell α) : Prop where
  dst : cell.dst = dot (axes.map Axis.dstStride) index
  inside : cell.fills = [] ↔ Inside (axes.map Axis.view) index
  src : cell.fills = [] → cell.src = offset (axes.map Axis.view) index
  fills : ∀ (k : Nat) axis pad i, axes[k]? = some axis → axis.pad = some pad →
    index[k]? = some i → ¬ axis.view.Holds i → pad.value ∈ cell.fills

/-- What an index of an axis makes of a cell behind it. -/
theorem Axis.shift_spec {j : Nat} (hj : (j : Int) < axis.padded) (cell : Cell α) :
    (axis.shift j cell).dst = j * axis.dstStride + cell.dst ∧
      (axis.view.Holds j → (axis.shift j cell).fills = cell.fills ∧
        (axis.shift j cell).src = (j - axis.view.lo) * axis.view.stride + cell.src) ∧
      (¬ axis.view.Holds j → ∃ pad, axis.pad = some pad ∧
        (axis.shift j cell).fills = pad.value :: cell.fills) := by
  unfold Axis.shift Axis.view ViewAxis.Holds
  cases hpad : axis.pad with
  | none =>
      rw [padded_of_no_pad hpad] at hj
      refine ⟨rfl, fun _ => ⟨rfl, ?_⟩, fun hout => ?_⟩
      · rw [sub_zero]
      · exact absurd ⟨Int.natCast_nonneg j, by rwa [zero_add]⟩ hout
  | some pad =>
      dsimp only
      split
      · rename_i hin
        exact ⟨rfl, fun _ => ⟨rfl, rfl⟩, fun hout => absurd hin hout⟩
      · rename_i hout
        exact ⟨rfl, fun hin => absurd hin hout, fun _ => ⟨pad, rfl, rfl⟩⟩

theorem Cell.At.shift (h : cell.At axes index) {j : Nat} (hj : (j : Int) < axis.padded) :
    (axis.shift j cell).At (axis :: axes) (j :: index) := by
  obtain ⟨hdst, hin, hout⟩ := Axis.shift_spec hj cell
  have hdst' : (axis.shift j cell).dst = dot ((axis :: axes).map Axis.dstStride) (j :: index) := by
    rw [hdst, h.dst]
    rfl
  have hinside : Inside ((axis :: axes).map Axis.view) ((j : Int) :: index) ↔
      axis.view.Holds j ∧ cell.fills = [] := by
    rw [h.inside]
    exact List.forall₂_cons
  by_cases hholds : axis.view.Holds j
  · obtain ⟨hfills, hsrc⟩ := hin hholds
    refine ⟨hdst', ?_, fun hnil => ?_, fun k other pad i hother hpad hi hout => ?_⟩
    · rw [hinside, hfills]
      exact ⟨fun hnil => ⟨hholds, hnil⟩, fun hboth => hboth.2⟩
    · rw [hsrc, h.src (hfills ▸ hnil), List.map_cons, offset_cons]
    · rw [hfills]
      cases k with
      | zero =>
          cases hother
          cases hi
          exact absurd hholds hout
      | succ k => exact h.fills k other pad i hother hpad hi hout
  · obtain ⟨pad, hpad, hfills⟩ := hout hholds
    refine ⟨hdst', ?_, fun hnil => ?_, fun k other pad' i hother hpad' hi hout => ?_⟩
    · rw [hinside, hfills]
      exact ⟨fun hnil => absurd hnil (List.cons_ne_nil _ _), fun hboth => absurd hboth.1 hholds⟩
    · rw [hfills] at hnil
      exact absurd hnil (List.cons_ne_nil _ _)
    · rw [hfills]
      cases k with
      | zero =>
          cases hother
          rw [hpad] at hpad'
          cases hpad'
          exact List.mem_cons_self
      | succ k => exact List.mem_cons_of_mem _ (h.fills k other pad' i hother hpad' hi hout)

/-! ### The place of an index -/

theorem getElem?_flatMap_range {β : Type} {n m j r : Nat} {f : Nat → List β}
    (hlength : ∀ j, (f j).length = m) (hj : j < n) (hr : r < m) :
    ((List.range n).flatMap f)[j * m + r]? = (f j)[r]? := by
  have hcount : ∀ n, ((List.range n).flatMap f).length = n * m := by
    intro n
    induction n with
    | zero => rw [List.range_zero, List.flatMap_nil, List.length_nil, Nat.zero_mul]
    | succ n ih =>
        rw [List.range_succ, List.flatMap_append, List.length_append, ih, List.flatMap_singleton,
          hlength, Nat.succ_mul]
  induction n with
  | zero => exact absurd hj (Nat.not_lt_zero j)
  | succ n ih =>
      rw [List.range_succ, List.flatMap_append, List.flatMap_singleton]
      by_cases hlt : j < n
      · have hplace : j * m + r < n * m := by
          have hmul := Nat.mul_le_mul_right m (Nat.succ_le_of_lt hlt)
          rw [Nat.succ_mul] at hmul
          omega
        rw [List.getElem?_append_left (by rwa [hcount]), ih hlt]
      · obtain rfl : j = n := by omega
        rw [List.getElem?_append_right (by rw [hcount]; omega), hcount, Nat.add_sub_cancel_left]

theorem length_walk (h : Proper axes) : (walk axes).length = (size axes).toNat := by
  induction axes with
  | nil => rfl
  | cons axis axes ih =>
      rw [Proper, List.forall_mem_cons] at h
      have hpadded : 0 ≤ axis.padded := by
        have hextent := h.1.1
        have hle := h.1.one_le_padded
        omega
      rw [walk, size_cons, Int.toNat_mul hpadded (by have := Proper.one_le_size h.2; omega),
        ← ih h.2,
        List.length_flatMap]
      simp

/-- The cell at an index is found at the row-major number of the index. -/
theorem getElem?_walk (h : Proper axes) (hbox : InBox (axes.map Axis.padded) index) :
    ∃ cell, (walk axes)[(flat (axes.map Axis.padded) index).toNat]? = some cell ∧
      cell.At axes index := by
  induction axes generalizing index with
  | nil =>
      cases hbox
      refine ⟨⟨0, 0, []⟩, rfl, rfl, ?_, fun _ => rfl, fun k axis pad i haxis => ?_⟩
      · exact iff_of_true rfl .nil
      · cases haxis
  | cons axis axes ih =>
      rw [Proper, List.forall_mem_cons] at h
      rw [List.map_cons] at hbox ⊢
      cases hbox with
      | @cons _ i _ index hi hrest =>
          obtain ⟨cell, hcell, hat⟩ := ih h.2 hrest
          have hpos := positive_padded h.2
          have h0 := flat_nonneg hpos hrest
          have hlt := flat_lt hpos hrest
          have hsize : 0 ≤ size axes := by
            have := Proper.one_le_size h.2
            omega
          obtain ⟨j, rfl⟩ := Int.eq_ofNat_of_zero_le hi.1
          refine ⟨axis.shift j cell, ?_, hat.shift hi.2⟩
          have hplace : (flat (axis.padded :: axes.map Axis.padded) ((j : Int) :: index)).toNat =
              j * (size axes).toNat + (flat (axes.map Axis.padded) index).toNat := by
            show ((j : Int) * size axes + flat (axes.map Axis.padded) index).toNat = _
            rw [Int.toNat_add (mul_nonneg (Int.natCast_nonneg j) hsize) h0,
              Int.toNat_mul (Int.natCast_nonneg j) hsize, Int.toNat_natCast]
          rw [hplace, walk, getElem?_flatMap_range
            (fun j => by rw [List.length_map, length_walk h.2])
            (by omega) (by unfold size; omega), List.getElem?_map, hcell]
          rfl

end SymReloc.Walk
