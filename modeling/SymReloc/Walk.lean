import Mathlib.Algebra.BigOperators.Group.List.Basic
import Mathlib.Algebra.Order.Ring.Int
import Mathlib.Data.Set.Basic
import Mathlib.Tactic.Common
import Mathlib.Tactic.Linarith
import Mathlib.Tactic.Ring

/-!
# Walks over padded axes

A list of axes, each with an extent, a stride on either side and perhaps a pad, is
walked in row-major order: a cell inside all extents copies a source element, any
other carries the values of the pads it lies in.  Two unpadded neighbours whose outer
strides are the inner ones times the inner extent walk as one axis (`walk_mergeAt`),
and giving the axes row-major destination strides commutes with that
(`rowMajor_mergeAt`).
-/

namespace SymReloc.Walk

/-- A pad of an axis. -/
structure Pad (α : Type) where
  lo : Int
  hi : Int
  value : α
deriving DecidableEq, Repr

structure Axis (α : Type) where
  extent : Int
  srcStride : Int
  dstStride : Int
  pad : Option (Pad α)
deriving DecidableEq, Repr

/-- A place of the walk: its offsets and the values of the pads around it. -/
structure Cell (α : Type) where
  src : Int
  dst : Int
  fills : List α
deriving DecidableEq, Repr

variable {α : Type} {axis outer inner : Axis α} {axes : List (Axis α)} {k : Nat}

/-- The extent with the pad. -/
def Axis.padded (axis : Axis α) : Int :=
  match axis.pad with
  | none => axis.extent
  | some pad => pad.lo + axis.extent + pad.hi

/-- A cell of the inner axes, at an index of this one. -/
def Axis.shift (axis : Axis α) (j : Nat) (cell : Cell α) : Cell α :=
  match axis.pad with
  | none =>
      { cell with src := j * axis.srcStride + cell.src, dst := j * axis.dstStride + cell.dst }
  | some pad =>
      if pad.lo ≤ j ∧ j < pad.lo + axis.extent then
        { cell with
          src := (j - pad.lo) * axis.srcStride + cell.src
          dst := j * axis.dstStride + cell.dst }
      else { cell with dst := j * axis.dstStride + cell.dst, fills := pad.value :: cell.fills }

/-- The cells in row-major order. -/
def walk : List (Axis α) → List (Cell α)
  | [] => [⟨0, 0, []⟩]
  | axis :: axes =>
      (List.range axis.padded.toNat).flatMap fun j => (walk axes).map (axis.shift j)

/-- The number of cells. -/
def size (axes : List (Axis α)) : Int := (axes.map Axis.padded).prod

/-- The axes with the strides of a packed destination. -/
def rowMajor : List (Axis α) → List (Axis α)
  | [] => []
  | axis :: axes => { axis with dstStride := size axes } :: rowMajor axes

/-- The axes `k` and `k + 1` as one. -/
def mergeAt : Nat → List (Axis α) → List (Axis α)
  | 0, outer :: inner :: axes =>
      { inner with extent := outer.extent * inner.extent, pad := none } :: axes
  | k + 1, axis :: axes => axis :: mergeAt k axes
  | _, axes => axes

/-- Every axis has an index and no pad takes any away. -/
def Axis.Proper (axis : Axis α) : Prop :=
  1 ≤ axis.extent ∧ ∀ pad ∈ axis.pad, 0 ≤ pad.lo ∧ 0 ≤ pad.hi

instance (axis : Axis α) : Decidable axis.Proper := by unfold Axis.Proper; infer_instance

def Proper (axes : List (Axis α)) : Prop := ∀ axis ∈ axes, axis.Proper

instance (axes : List (Axis α)) : Decidable (Proper axes) := by unfold Proper; infer_instance

@[simp] theorem size_cons (axis : Axis α) (axes : List (Axis α)) :
    size (axis :: axes) = axis.padded * size axes := by
  simp [size]

theorem padded_of_no_pad (h : axis.pad = none) : axis.padded = axis.extent := by
  rw [Axis.padded, h]

theorem Axis.Proper.one_le_padded (h : axis.Proper) : axis.extent ≤ axis.padded := by
  unfold Axis.padded
  split
  · exact le_rfl
  · rename_i pad hpad
    have := h.2 pad hpad
    omega

theorem Proper.one_le_size (h : Proper axes) : 1 ≤ size axes := by
  induction axes with
  | nil => exact le_rfl
  | cons axis axes ih =>
      rw [Proper, List.forall_mem_cons] at h
      rw [size_cons]
      exact one_le_mul_of_one_le_of_one_le (h.1.1.trans h.1.one_le_padded) (ih h.2)

theorem Proper.padded_le_size (h : Proper axes) (hmem : axis ∈ axes) :
    axis.padded ≤ size axes := by
  induction axes with
  | nil => cases hmem
  | cons head axes ih =>
      rw [Proper, List.forall_mem_cons] at h
      have hhead := h.1.1.trans h.1.one_le_padded
      have hrest := Proper.one_le_size h.2
      rw [size_cons]
      rcases List.mem_cons.mp hmem with rfl | htail
      · exact le_mul_of_one_le_right (by omega) hrest
      · exact (ih h.2 htail).trans (le_mul_of_one_le_left (by omega) hhead)

/-! ### Merging two axes -/

/-- The axes `k` and `k + 1` have no pads. -/
structure Unpadded (axes : List (Axis α)) (k : Nat) (outer inner : Axis α) : Prop where
  outer_eq : axes[k]? = some outer
  inner_eq : axes[k + 1]? = some inner
  outer_pad : outer.pad = none
  inner_pad : inner.pad = none

/-- Moreover the outer source stride, where it counts, is the inner one times the inner
    extent. -/
structure Contiguous (axes : List (Axis α)) (k : Nat) (outer inner : Axis α) : Prop
    extends Unpadded axes k outer inner where
  src : 1 < outer.extent → outer.srcStride = inner.srcStride * inner.extent

/-- Counting by blocks. -/
theorem range_mul_flatMap {β : Type} (n m : Nat) (f : Nat → List β) :
    (List.range (n * m)).flatMap f =
      (List.range n).flatMap fun i => (List.range m).flatMap fun j => f (i * m + j) := by
  induction n with
  | zero => simp
  | succ n ih =>
      rw [Nat.succ_mul, List.range_add, List.flatMap_append, ih, List.range_succ,
        List.flatMap_append, List.flatMap_map]
      simp

/-- The merged axis reaches, at index `i * extent + j`, what the two reach at `i` and `j`. -/
theorem shift_merge (houter : outer.pad = none) (hinner : inner.pad = none)
    (hextent : 0 ≤ inner.extent) {i j : Nat} {cell : Cell α}
    (hsrc : i ≠ 0 → outer.srcStride = inner.srcStride * inner.extent)
    (hdst : i ≠ 0 → outer.dstStride = inner.dstStride * inner.extent) :
    ({ inner with extent := outer.extent * inner.extent, pad := none } : Axis α).shift
        (i * inner.extent.toNat + j) cell = outer.shift i (inner.shift j cell) := by
  have hcast : ((i * inner.extent.toNat + j : Nat) : Int) = i * inner.extent + j := by
    push_cast
    rw [Int.toNat_of_nonneg hextent]
  simp only [Axis.shift, houter, hinner, hcast]
  by_cases hi : i = 0
  · simp [hi]
  · rw [hsrc hi, hdst hi]
    congr 1 <;> ring

theorem walk_merge {axes : List (Axis α)} (houter : outer.pad = none) (hinner : inner.pad = none)
    (hpos : 1 ≤ outer.extent) (hextent : 1 ≤ inner.extent)
    (hsrc : 1 < outer.extent → outer.srcStride = inner.srcStride * inner.extent)
    (hdst : 1 < outer.extent → outer.dstStride = inner.dstStride * inner.extent) :
    walk ({ inner with extent := outer.extent * inner.extent, pad := none } :: axes) =
      walk (outer :: inner :: axes) := by
  have hcount : (outer.extent * inner.extent).toNat = outer.extent.toNat * inner.extent.toNat :=
    Int.toNat_mul (by omega) (by omega)
  have hmerged : ({ inner with extent := outer.extent * inner.extent, pad := none } :
      Axis α).padded = outer.extent * inner.extent := padded_of_no_pad rfl
  simp only [walk, padded_of_no_pad houter, padded_of_no_pad hinner, hmerged, hcount,
    range_mul_flatMap, List.map_flatMap, List.map_map]
  refine List.flatMap_congr fun i hi => List.flatMap_congr fun j _ => ?_
  have hlt := List.mem_range.mp hi
  refine List.map_congr_left fun cell _ => ?_
  exact shift_merge houter hinner (by omega) (fun h => hsrc (by omega)) fun h => hdst (by omega)

/-- Two neighbours that are contiguous on both sides walk as one axis. -/
theorem walk_mergeAt (hproper : Proper axes) (h : Contiguous axes k outer inner)
    (hdst : 1 < outer.extent → outer.dstStride = inner.dstStride * inner.extent) :
    walk (mergeAt k axes) = walk axes := by
  induction axes generalizing k with
  | nil => cases h.outer_eq
  | cons axis axes ih =>
      rw [Proper, List.forall_mem_cons] at hproper
      cases k with
      | succ k =>
          have hrest := ih hproper.2
            ⟨⟨h.outer_eq, h.inner_eq, h.outer_pad, h.inner_pad⟩, h.src⟩
          rw [mergeAt, walk, walk, hrest]
      | zero =>
          cases axes with
          | nil => cases h.inner_eq
          | cons next axes =>
              obtain ⟨⟨houter, hinner, houterPad, hinnerPad⟩, hsrc⟩ := h
              cases houter
              cases hinner
              have hnext := hproper.2 _ List.mem_cons_self
              exact walk_merge houterPad hinnerPad hproper.1.1 hnext.1 hsrc hdst

theorem size_mergeAt (h : Unpadded axes k outer inner) : size (mergeAt k axes) = size axes := by
  induction axes generalizing k with
  | nil => cases h.outer_eq
  | cons axis axes ih =>
      cases k with
      | succ k =>
          rw [mergeAt, size_cons, size_cons,
            ih ⟨h.outer_eq, h.inner_eq, h.outer_pad, h.inner_pad⟩]
      | zero =>
          cases axes with
          | nil => cases h.inner_eq
          | cons next axes =>
              obtain ⟨houter, hinner, houterPad, hinnerPad⟩ := h
              cases houter
              cases hinner
              rw [mergeAt, size_cons, padded_of_no_pad rfl, size_cons, size_cons,
                padded_of_no_pad houterPad, padded_of_no_pad hinnerPad, mul_assoc]

theorem mergeAt_getElem? (houter : axes[k]? = some outer) (hinner : axes[k + 1]? = some inner)
    (j : Nat) : (mergeAt k axes)[j]? =
      if j < k then axes[j]?
      else if j = k then
        some { inner with extent := outer.extent * inner.extent, pad := none }
      else axes[j + 1]? := by
  induction axes generalizing k j with
  | nil => cases houter
  | cons axis axes ih =>
      cases k with
      | succ k =>
          cases j with
          | zero => simp [mergeAt]
          | succ j =>
              rw [mergeAt, List.getElem?_cons_succ, ih houter hinner j]
              simp
      | zero =>
          cases axes with
          | nil => cases hinner
          | cons next axes =>
              cases houter
              cases hinner
              cases j <;> simp [mergeAt]

theorem Unpadded.mem_mergeAt (h : Unpadded axes k outer inner) :
    { inner with extent := outer.extent * inner.extent, pad := none } ∈ mergeAt k axes := by
  refine List.mem_of_getElem? (i := k) ?_
  rw [mergeAt_getElem? h.outer_eq h.inner_eq, if_neg (lt_irrefl k), if_pos rfl]

theorem length_mergeAt (hinner : axes[k + 1]? = some inner) :
    (mergeAt k axes).length = axes.length - 1 := by
  induction axes generalizing k with
  | nil => cases hinner
  | cons axis axes ih =>
      have hpos : 0 < axes.length := by
        have := (List.getElem?_eq_some_iff.mp hinner).1
        rw [List.length_cons] at this
        omega
      cases k with
      | succ k =>
          rw [mergeAt, List.length_cons, ih hinner, List.length_cons]
          omega
      | zero =>
          cases axes with
          | nil => cases hinner
          | cons next axes => simp [mergeAt]

theorem Proper.mergeAt (hproper : Proper axes) : Proper (mergeAt k axes) := by
  fun_induction Walk.mergeAt k axes with
  | case1 outer inner axes =>
      simp only [Proper, List.forall_mem_cons] at hproper ⊢
      refine ⟨⟨one_le_mul_of_one_le_of_one_le hproper.1.1 hproper.2.1.1, ?_⟩, hproper.2.2⟩
      intro pad hpad
      cases hpad
  | case2 k axis axes ih =>
      simp only [Proper, List.forall_mem_cons] at hproper ⊢
      exact ⟨hproper.1, ih hproper.2⟩
  | case3 => exact hproper

/-! ### Row-major strides -/

@[simp] theorem size_rowMajor (axes : List (Axis α)) : size (rowMajor axes) = size axes := by
  induction axes with
  | nil => rfl
  | cons axis axes ih => rw [rowMajor, size_cons, size_cons, ih]; rfl

theorem Proper.rowMajor (h : Proper axes) : Proper (rowMajor axes) := by
  induction axes with
  | nil => exact h
  | cons axis axes ih =>
      rw [Proper, List.forall_mem_cons] at h
      exact List.forall_mem_cons.mpr ⟨h.1, ih h.2⟩

theorem rowMajor_getElem? (h : axes[k]? = some axis) :
    (rowMajor axes)[k]? = some { axis with dstStride := size (axes.drop (k + 1)) } := by
  induction axes generalizing k with
  | nil => cases h
  | cons head axes ih =>
      cases k with
      | zero =>
          cases h
          rfl
      | succ k => exact ih h

/-- Merging and packing commute. -/
theorem rowMajor_mergeAt (h : Unpadded axes k outer inner) :
    rowMajor (mergeAt k axes) = mergeAt k (rowMajor axes) := by
  induction axes generalizing k with
  | nil => cases h.outer_eq
  | cons axis axes ih =>
      cases k with
      | succ k =>
          have hrest : Unpadded axes k outer inner :=
            ⟨h.outer_eq, h.inner_eq, h.outer_pad, h.inner_pad⟩
          rw [mergeAt, rowMajor, rowMajor, mergeAt, ih hrest, size_mergeAt hrest]
      | zero =>
          cases axes with
          | nil => cases h.inner_eq
          | cons next axes => rfl

/-- In packed axes any two contiguous source axes walk as one. -/
theorem walk_rowMajor_mergeAt (hproper : Proper axes) (h : Contiguous axes k outer inner) :
    walk (rowMajor (mergeAt k axes)) = walk (rowMajor axes) := by
  rw [rowMajor_mergeAt h.toUnpadded]
  have hsize : size (axes.drop (k + 1)) = inner.extent * size (axes.drop (k + 2)) := by
    rw [List.drop_eq_getElem?_toList_append, h.inner_eq]
    simp [padded_of_no_pad h.inner_pad]
  refine walk_mergeAt hproper.rowMajor
    ⟨⟨rowMajor_getElem? h.outer_eq, rowMajor_getElem? h.inner_eq, h.outer_pad, h.inner_pad⟩, h.src⟩
    fun _ => ?_
  show size (axes.drop (k + 1)) = size (axes.drop (k + 2)) * inner.extent
  rw [hsize, mul_comm]

/-- Axes that are packed wherever there is more than one index walk as the packed ones. -/
theorem walk_rowMajor_of_strides (hproper : Proper axes)
    (h : ∀ k axis, axes[k]? = some axis → axis.padded ≠ 1 →
      axis.dstStride = size (axes.drop (k + 1))) : walk (rowMajor axes) = walk axes := by
  induction axes with
  | nil => rfl
  | cons axis axes ih =>
      rw [Proper, List.forall_mem_cons] at hproper
      have hrest := ih hproper.2 fun k next hnext => h (k + 1) next hnext
      rw [rowMajor, walk, walk, hrest]
      refine List.flatMap_congr fun j hj => List.map_congr_left fun cell _ => ?_
      have hlt : j < axis.padded.toNat := List.mem_range.mp hj
      by_cases hone : axis.padded = 1
      · -- the only index is zero, which no stride moves
        obtain rfl : j = 0 := by omega
        unfold Axis.shift
        simp only [Nat.cast_zero, zero_mul]
      · have hstride : axis.dstStride = size axes := h 0 axis rfl hone
        rw [← hstride]

/-! ### Offsets that occur -/

/-- Some index of an axis, right behind its leading pad, moves no source offset. -/
theorem Axis.Proper.exists_index (h : axis.Proper) (cell : Cell α) :
    ∃ j ∈ List.range axis.padded.toNat,
      (axis.shift j cell).src = cell.src ∧ (axis.shift j cell).fills = cell.fills := by
  obtain ⟨hextent, hpad⟩ := h
  cases hcase : axis.pad with
  | none =>
      refine ⟨0, List.mem_range.mpr ?_, ?_, ?_⟩
      · rw [padded_of_no_pad hcase]
        omega
      · simp [Axis.shift, hcase]
      · simp [Axis.shift, hcase]
  | some pad =>
      have hwidths := hpad pad hcase
      have hinside : pad.lo ≤ pad.lo.toNat ∧ (pad.lo.toNat : Int) < pad.lo + axis.extent := by
        omega
      refine ⟨pad.lo.toNat, List.mem_range.mpr ?_, ?_, ?_⟩
      · simp only [Axis.padded, hcase]
        omega
      · simp only [Axis.shift, hcase, if_pos hinside]
        rw [Int.toNat_of_nonneg hwidths.1, sub_self, zero_mul, zero_add]
      · simp only [Axis.shift, hcase, if_pos hinside]

theorem mem_walk_cons {j : Nat} {cell : Cell α} (hj : j ∈ List.range axis.padded.toNat)
    (hcell : cell ∈ walk axes) : axis.shift j cell ∈ walk (axis :: axes) :=
  List.mem_flatMap.mpr ⟨j, hj, List.mem_map_of_mem hcell⟩

/-- The walk visits the first element. -/
theorem exists_cell_zero (h : Proper axes) :
    ∃ cell ∈ walk axes, cell.src = 0 ∧ cell.fills = [] := by
  induction axes with
  | nil => exact ⟨⟨0, 0, []⟩, List.mem_singleton_self _, rfl, rfl⟩
  | cons axis axes ih =>
      rw [Proper, List.forall_mem_cons] at h
      obtain ⟨cell, hcell, hsrc, hfills⟩ := ih h.2
      obtain ⟨j, hj, hsame⟩ := h.1.exists_index cell
      exact ⟨axis.shift j cell, mem_walk_cons hj hcell, hsame.1.trans hsrc, hsame.2.trans hfills⟩

/-- Along an axis without a pad it visits every index. -/
theorem exists_cell_along (h : Proper axes) (haxis : axes[k]? = some axis) (hpad : axis.pad = none)
    {i : Nat} (hi : i < axis.extent) :
    ∃ cell ∈ walk axes, cell.src = i * axis.srcStride ∧ cell.fills = [] := by
  induction axes generalizing k with
  | nil => cases haxis
  | cons head axes ih =>
      rw [Proper, List.forall_mem_cons] at h
      cases k with
      | zero =>
          cases haxis
          obtain ⟨cell, hcell, hsrc, hfills⟩ := exists_cell_zero h.2
          refine ⟨axis.shift i cell, mem_walk_cons (List.mem_range.mpr ?_) hcell, ?_, ?_⟩
          · rw [padded_of_no_pad hpad]
            omega
          · simp [Axis.shift, hpad, hsrc]
          · simp [Axis.shift, hpad, hfills]
      | succ k =>
          obtain ⟨cell, hcell, hsrc, hfills⟩ := ih h.2 haxis
          obtain ⟨j, hj, hsame⟩ := h.1.exists_index cell
          exact ⟨head.shift j cell, mem_walk_cons hj hcell, hsame.1.trans hsrc,
            hsame.2.trans hfills⟩

/-! ### What a walk means -/

/-- The axes with the offsets the walk starts from. -/
structure Layout (α : Type) where
  srcOffset : Int
  dstOffset : Int
  axes : List (Axis α)
deriving DecidableEq, Repr

/-- With the strides of a packed destination. -/
def Layout.rowMajor (layout : Layout α) : Layout α :=
  { layout with axes := Walk.rowMajor layout.axes }

/-- The pairs of a source and a destination element. -/
def Layout.copies (layout : Layout α) : Set (Int × Int) :=
  { pair | ∃ cell ∈ walk layout.axes, cell.fills = [] ∧
    pair = (layout.srcOffset + cell.src, layout.dstOffset + cell.dst) }

/-- The pad cells, each with the values of the pads around it. -/
def Layout.padCells (layout : Layout α) : Set (Int × List α) :=
  { entry | ∃ cell ∈ walk layout.axes, cell.fills ≠ [] ∧
    entry = (layout.dstOffset + cell.dst, cell.fills) }

/-- As many cells, the same copies and the same pad cells. -/
structure Layout.SameMeaning (a b : Layout α) : Prop where
  size : size a.axes = size b.axes
  copies : a.copies = b.copies
  padCells : a.padCells = b.padCells

theorem Layout.SameMeaning.refl (a : Layout α) : a.SameMeaning a := ⟨rfl, rfl, rfl⟩

theorem Layout.SameMeaning.symm {a b : Layout α} (h : a.SameMeaning b) : b.SameMeaning a :=
  ⟨h.size.symm, h.copies.symm, h.padCells.symm⟩

theorem Layout.SameMeaning.trans {a b c : Layout α} (h : a.SameMeaning b)
    (h' : b.SameMeaning c) : a.SameMeaning c :=
  ⟨h.size.trans h'.size, h.copies.trans h'.copies, h.padCells.trans h'.padCells⟩

/-- Layouts with one walk from the same offsets mean the same. -/
theorem Layout.SameMeaning.of_walk {a b : Layout α} (hsrc : a.srcOffset = b.srcOffset)
    (hdst : a.dstOffset = b.dstOffset) (hsize : Walk.size a.axes = Walk.size b.axes)
    (hwalk : walk a.axes = walk b.axes) : a.SameMeaning b := by
  refine ⟨hsize, ?_, ?_⟩
  · rw [Layout.copies, Layout.copies, hwalk, hsrc, hdst]
  · rw [Layout.padCells, Layout.padCells, hwalk, hdst]

end SymReloc.Walk
