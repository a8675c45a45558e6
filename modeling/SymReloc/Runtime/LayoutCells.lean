import Mathlib.Algebra.Order.BigOperators.Group.List
import SymReloc.Packing
import SymReloc.Runtime.Coalesce

/-!
# The cells a layout addresses

Concrete axes give every index tuple a source cell and a destination cell.  As numbers of an
interval these are what the strides make of the index, so that the cells are an interval, each
once, exactly where the strides are tight.
-/

namespace SymReloc

open Outcome

/-! ### Cells and index tuples -/

theorem nodup_intRange (lo hi : Int) : (intRange lo hi).Nodup := by
  rw [intRange]
  exact List.Nodup.map (fun a b h => by simpa using h) List.nodup_range

theorem nodup_indices (extents : List Int) : (indices extents).Nodup := by
  induction extents with
  | nil => simp [indices]
  | cons extent extents ih =>
      rw [indices, List.nodup_flatMap]
      refine ⟨fun i _ => ih.map fun a b h => (List.cons.inj h).2, ?_⟩
      refine (nodup_intRange 0 extent).imp fun {i j} hne => ?_
      simp only [Function.onFun, List.disjoint_left, List.mem_map]
      rintro _ ⟨index, -, rfl⟩ ⟨index', -, heq⟩
      exact hne (List.cons.inj heq).1.symm

/-- The cells of all index tuples are those of an interval, each once. -/
theorem perm_intRange_iff {axes : List Strides.Axis} {extents : List Int} {count : Int}
    (hbox : ∀ index, index ∈ indices extents ↔ Strides.InBox axes index) :
    ((indices extents).map (Strides.offset axes)).Perm (intRange 0 count) ↔
      Set.BijOn (Strides.offset axes) {index | Strides.InBox axes index} (Set.Ico 0 count) := by
  constructor
  · intro hperm
    have hnodup := hperm.nodup_iff.mpr (nodup_intRange 0 count)
    refine ⟨fun index hindex => ?_, fun index hindex index' hindex' heq => ?_, fun cell hcell => ?_⟩
    · exact mem_intRange.mp (hperm.mem_iff.mp (List.mem_map_of_mem ((hbox index).mpr hindex)))
    · exact List.inj_on_of_nodup_map hnodup ((hbox index).mpr hindex)
        ((hbox index').mpr hindex') heq
    · obtain ⟨index, hindex, heq⟩ := List.mem_map.mp (hperm.mem_iff.mpr (mem_intRange.mpr hcell))
      exact ⟨index, (hbox index).mp hindex, heq⟩
  · intro h
    refine (List.perm_ext_iff_of_nodup ?_ (nodup_intRange 0 count)).mpr fun cell => ?_
    · refine List.Nodup.map_on (fun index hindex index' hindex' heq => ?_) (nodup_indices extents)
      exact h.injOn ((hbox index).mp hindex) ((hbox index').mp hindex') heq
    · rw [mem_intRange, List.mem_map]
      constructor
      · rintro ⟨index, hindex, rfl⟩
        exact h.mapsTo ((hbox index).mp hindex)
      · intro hcell
        obtain ⟨index, hindex, heq⟩ := h.surjOn hcell
        exact ⟨index, (hbox index).mpr hindex, heq⟩

/-- Cells that reach all of an interval, and are no more than it has, are those of the interval. -/
theorem perm_intRange_of_covers {cells : List Int} {count : Int}
    (hcover : ∀ cell, 0 ≤ cell ∧ cell < count → cell ∈ cells)
    (hlength : (cells.length : Int) ≤ count) : cells.Perm (intRange 0 count) := by
  have hsub : (intRange 0 count).Subperm cells :=
    List.subperm_of_subset (nodup_intRange _ _) fun cell hcell =>
      hcover cell (mem_intRange.mp hcell)
  refine (hsub.perm_of_length_le ?_).symm
  rw [intRange, List.length_map, List.length_range]
  omega

/-! ### Strides of a layout -/

namespace ConcreteAxis

variable {axes : List ConcreteAxis}

def reading (axis : ConcreteAxis) : Strides.Axis := ⟨axis.extent, axis.srcStride⟩
def writing (axis : ConcreteAxis) : Strides.Axis := ⟨axis.extent, axis.dstStride⟩

/-- The destination cell of the first index, after the low pads. -/
def padShift (axes : List ConcreteAxis) : Int :=
  (axes.map fun axis => axis.lo * axis.dstStride).sum

theorem forward_reading (h : ∀ axis ∈ axes, axis.Sound) :
    Strides.Forward (axes.map reading) := by
  intro axis hmem
  obtain ⟨source, hsource, rfl⟩ := List.mem_map.mp hmem
  exact ⟨(h source hsource).extent, (h source hsource).src⟩

theorem forward_writing (h : ∀ axis ∈ axes, axis.Sound) :
    Strides.Forward (axes.map writing) := by
  intro axis hmem
  obtain ⟨source, hsource, rfl⟩ := List.mem_map.mp hmem
  exact ⟨(h source hsource).extent, (h source hsource).dst⟩

theorem padShift_nonneg (h : ∀ axis ∈ axes, axis.Sound) : 0 ≤ padShift axes := by
  refine List.sum_nonneg fun shift hmem => ?_
  obtain ⟨axis, haxis, rfl⟩ := List.mem_map.mp hmem
  exact mul_nonneg (h axis haxis).pads.1 (h axis haxis).dst

theorem inBox_reading (axes : List ConcreteAxis) (index : List Int) :
    index ∈ indices (axes.map extent) ↔ Strides.InBox (axes.map reading) index := by
  have hvalid : index ∈ indices ((axes.map walk).map WalkAxis.extent) ↔
      Valid (axes.map walk) index := mem_indices
  rw [List.map_map] at hvalid
  unfold Valid at hvalid
  unfold Strides.InBox
  rw [List.forall₂_map_left_iff] at hvalid ⊢
  exact hvalid

theorem inBox_writing (axes : List ConcreteAxis) (index : List Int) :
    index ∈ indices (axes.map extent) ↔ Strides.InBox (axes.map writing) index := by
  rw [inBox_reading]
  unfold Strides.InBox
  rw [List.forall₂_map_left_iff, List.forall₂_map_left_iff]
  rfl

theorem cells_writing (axes : List ConcreteAxis) :
    Strides.cells (axes.map writing) = (axes.map extent).prod := by
  induction axes with
  | nil => rfl
  | cons axis axes ih =>
      rw [List.map_cons, List.map_cons, List.prod_cons, Strides.cells, ih]
      rfl

theorem dstOffset_walk {index : List Int} (h : index.length = axes.length) :
    dstOffset (axes.map walk) index =
      padShift axes + Strides.offset (axes.map writing) index := by
  induction axes generalizing index with
  | nil => simp [dstOffset, padShift, Strides.offset]
  | cons axis axes ih =>
      cases index with
      | nil => simp at h
      | cons i index =>
          have hlength : index.length = axes.length := by simpa using h
          have hrest := ih hlength
          simp only [padShift, List.map_cons, List.sum_cons] at hrest ⊢
          rw [dstOffset, hrest, Strides.offset]
          simp only [walk, writing]
          ring

/-- What is loaded and stored, in the order of the walk. -/
theorem visits_walk (axes : List ConcreteAxis) :
    visits (axes.map walk) 0 0 = (indices (axes.map extent)).map fun index =>
      (Strides.offset (axes.map reading) index,
        padShift axes + Strides.offset (axes.map writing) index) := by
  rw [visits_eq_map, List.map_map]
  refine List.map_congr_left fun index hindex => ?_
  have hlength : index.length = axes.length := by
    have := ((inBox_reading axes index).mp hindex).length_eq
    simpa using this.symm
  rw [dstOffset_walk hlength, srcOffset_eq, List.map_map, zero_add, zero_add]
  rfl

theorem length_indices_extents (h : ∀ axis ∈ axes, axis.Sound) :
    ((indices (axes.map extent)).length : Int) = (axes.map extent).prod := by
  induction axes with
  | nil => rfl
  | cons axis axes ih =>
      have hextent := (h axis List.mem_cons_self).extent
      have hrest := ih fun a ha => h a (List.mem_cons_of_mem _ ha)
      rw [List.map_cons, indices, List.length_flatMap, List.prod_cons, ← hrest]
      simp only [List.length_map, List.map_const', List.sum_replicate, smul_eq_mul]
      rw [intRange, List.length_map, List.length_range]
      push_cast
      rw [Int.sub_zero, Int.toNat_of_nonneg (by omega)]

end ConcreteAxis

/-- Axes that number so many cells one to one: some order of them is tight. -/
def Strides.Numbers (axes : List Strides.Axis) (count : Int) : Prop :=
  Strides.cells axes = count ∧ ∃ order : List Strides.Axis, order.Perm axes ∧ Strides.Tight 1 order

end SymReloc
