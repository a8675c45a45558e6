import SymReloc.Dispatch.Prefold
import SymReloc.Runtime.FastKernels
import SymReloc.Runtime.PureView

/-!
# Rows of a prefold

Over a packed layout both kernels make, of the rows they are given, the elements of the walk with
the scale of their row.  Whatever ranges a pool divides the rows into, the elements of all kernels
are those of the whole walk, and their cells are those of the image, each once.
-/

namespace SymReloc.Prefold

open Outcome Writes Quant

/-! ### Packed layouts -/

/-- Axes without pads, each stride the product of the extents below it. -/
def Rows : List WalkAxis → Prop
  | [] => True
  | axis :: rest => (1 ≤ axis.extent ∧ axis.lo = 0 ∧ axis.hi = 0) ∧
      axis.dstStride = (rest.map WalkAxis.extent).prod ∧ Rows rest

variable {axis : WalkAxis} {axes rest : List WalkAxis} {invScales : List Nat}

theorem Rows.extents (h : Rows axes) : ∀ extent ∈ axes.map WalkAxis.extent, 1 ≤ extent := by
  induction axes with
  | nil => simp
  | cons axis axes ih =>
      rw [List.map_cons, List.forall_mem_cons]
      exact ⟨h.1.1, ih h.2.2⟩

theorem Rows.prod_pos (h : Rows axes) : 1 ≤ (axes.map WalkAxis.extent).prod :=
  one_le_prod h.extents

/-- The walk stores to consecutive cells. -/
theorem Rows.map_snd_visits (h : Rows axes) (src dst : Int) :
    (visits axes src dst).map Prod.snd =
      (intRange 0 (axes.map WalkAxis.extent).prod).map fun k => dst + k := by
  induction axes generalizing src dst with
  | nil => simp [visits, intRange]
  | cons axis axes ih =>
      obtain ⟨⟨hextent, hlo, -⟩, hstride, hrest⟩ := h
      have hpos := hrest.prod_pos
      rw [visits, List.map_flatMap, List.map_cons, List.prod_cons,
        intRange_mul (by omega) (by omega), List.map_flatMap]
      refine List.flatMap_congr fun i _ => ?_
      rw [ih hrest, hstride, hlo, add_zero, List.map_map]
      refine List.map_congr_left fun k _ => ?_
      simp only [Function.comp_apply]
      ring

/-- The last cell of a block is below the next one. -/
theorem Rows.reach (h : Rows axes) :
    (axes.map fun axis => (axis.extent - 1) * axis.dstStride).sum + 1 =
      (axes.map WalkAxis.extent).prod := by
  induction axes with
  | nil => rfl
  | cons axis axes ih =>
      rw [List.map_cons, List.sum_cons, List.map_cons, List.prod_cons, add_assoc, ih h.2.2, h.2.1]
      ring

theorem packedElements_eq_some {axes : List WalkAxis} {elements : Int}
    (h : packedElements (axes.map fun axis => (axis.extent, axis.dstStride)) = some elements)
    (hbare : ∀ axis ∈ axes, 1 ≤ axis.extent ∧ axis.lo = 0 ∧ axis.hi = 0) :
    Rows axes ∧ elements = (axes.map WalkAxis.extent).prod := by
  induction axes generalizing elements with
  | nil =>
      cases h
      exact ⟨trivial, rfl⟩
  | cons axis axes ih =>
      rw [List.forall_mem_cons] at hbare
      simp only [List.map_cons, packedElements, Option.bind_eq_bind, Option.bind_eq_some_iff] at h
      obtain ⟨below, hbelow, h⟩ := h
      obtain ⟨hrows, rfl⟩ := ih hbelow hbare.2
      by_cases hstride : axis.dstStride = (axes.map WalkAxis.extent).prod
      · rw [if_pos hstride, Option.some.injEq] at h
        refine ⟨⟨hbare.1, hstride, hrows⟩, ?_⟩
        rw [← h, List.map_cons, List.prod_cons, mul_comm]
      · rw [if_neg hstride] at h
        cases h

theorem Rows.packedElements_eq (h : Rows axes) :
    packedElements (axes.map fun axis => (axis.extent, axis.dstStride)) =
      some (axes.map WalkAxis.extent).prod := by
  induction axes with
  | nil => rfl
  | cons axis axes ih =>
      simp only [List.map_cons, packedElements, ih h.2.2, Option.bind_eq_bind, Option.bind_some,
        if_pos h.2.1, List.prod_cons]
      rw [mul_comm]

/-! ### The elements of a row -/

/-- The elements of a walk, under one scale. -/
def cellsOf (moves : List (Int × Int)) (invScale : Nat) : List QuantCell :=
  moves.map fun move => ⟨move.1, move.2, invScale⟩

/-- The elements of a row of a layout. -/
def rowCells (invScales : List Nat) (axis : WalkAxis) (rest : List WalkAxis) (row : Int) :
    List QuantCell :=
  cellsOf (visits rest (row * axis.srcStride) (row * axis.dstStride))
    (invScales.getD row.toNat 0)

theorem quantRunScalar_eq (src srcStride dst n : Int) (invScale : Nat) :
    quantRunScalar src srcStride dst n invScale =
      (intRange 0 n).map fun i => ⟨src + i * srcStride, dst + i, invScale⟩ := by
  unfold quantRunScalar
  split
  · rename_i hone
    simp only [quantizePackScalar, hone, mul_one]
  · rfl

/-- Below the outer axis the walk keeps its scale. -/
theorem quantWalk_inner {depth : Nat} (hdepth : depth ≠ 0) (h : Rows (axis :: rest))
    (src dst : Int) (invScale : Nat) :
    quantWalk invScales (axis :: rest) depth 0 axis.extent src dst invScale =
      .ok (cellsOf (visits (axis :: rest) src dst) invScale) := by
  induction rest generalizing axis depth src dst with
  | nil =>
      obtain ⟨⟨-, hlo, -⟩, hstride, -⟩ := h
      rw [quantWalk, quantRunScalar_eq, ← rangedVisits_full, rangedVisits_single, cellsOf,
        List.map_map]
      congr 1
      rw [sub_zero]
      refine List.map_congr_left fun i _ => ?_
      simp [hlo, hstride]
  | cons next rest ih =>
      obtain ⟨⟨-, hlo, -⟩, hstride, hrest⟩ := h
      rw [quantWalk]
      simp only [if_neg hdepth, pure_eq, ok_bind]
      refine (flatten_of_ok fun i _ => ih (Nat.succ_ne_zero depth) hrest _ _).trans ?_
      rw [visits, cellsOf, List.map_flatMap]
      simp only [hlo, add_zero]
      rfl

theorem fetchAt_scale {row : Int} (hrow : 0 ≤ row) (hlt : row < invScales.length) :
    fetchAt invScales row = .ok (invScales.getD row.toNat 0) := by
  rw [fetchAt, if_neg (not_lt.mpr hrow), fetch_eq_ok, List.getD_eq_getElem?_getD,
    List.getElem?_eq_getElem (by omega)]
  rfl

/-- The gather kernel over rows that have scales. -/
theorem quantWalk_rows (h : Rows (axis :: rest)) (hrest : rest ≠ []) {first last : Int}
    (hfirst : 0 ≤ first) (hlast : last ≤ invScales.length) :
    quantWalk invScales (axis :: rest) 0 first last 0 0 0 =
      .ok ((intRange first last).flatMap (rowCells invScales axis rest)) := by
  obtain ⟨next, inner, rfl⟩ := List.exists_cons_of_ne_nil hrest
  rw [quantWalk]
  refine flatten_of_ok fun i hi => ?_
  rw [mem_intRange] at hi
  simp only [if_true, fetchAt_scale (hfirst.trans hi.1) (hi.2.trans_le hlast), ok_bind, zero_add]
  exact quantWalk_inner (Nat.succ_ne_zero 0) h.2.2 _ _ _

/-- The contiguous kernel, where the source is packed like the destination. -/
theorem quantizePack_rows (h : Rows (axis :: rest))
    (hlevel : ∀ a ∈ axis :: rest, a.srcStride = a.dstStride) {first last : Int}
    (hfirst : 0 ≤ first) (hlast : last ≤ invScales.length) :
    quantizePackF32S8 invScales (rest.map WalkAxis.extent).prod first last =
      .ok ((intRange first last).flatMap (rowCells invScales axis rest)) := by
  have hpacked : ∀ axes : List WalkAxis, Rows axes →
      (∀ a ∈ axes, a.srcStride = a.dstStride) → Packed axes := by
    intro axes hrows hlevel
    induction axes with
    | nil => trivial
    | cons axis axes ih =>
        rw [List.forall_mem_cons] at hlevel
        exact ⟨⟨hlevel.1, hrows.1.2⟩, hrows.2.1, ih hrows.2.2 hlevel.2⟩
  rw [List.forall_mem_cons] at hlevel
  have hvisits := visits_packed (hpacked rest h.2.2 hlevel.2)
    fun a ha => h.2.2.extents a.extent (List.mem_map_of_mem ha)
  refine flatten_of_ok fun c hc => ?_
  rw [mem_intRange] at hc
  rw [fetchAt_scale (hfirst.trans hc.1) (hc.2.trans_le hlast), ok_bind, pure_eq, rowCells, cellsOf,
    hvisits, quantizePackScalar, List.map_map, hlevel.1, h.2.1]
  rfl

/-! ### All rows -/

/-- The elements of a layout, row by row. -/
def allCells (invScales : List Nat) (axis : WalkAxis) (rest : List WalkAxis) : List QuantCell :=
  (intRange 0 axis.extent).flatMap (rowCells invScales axis rest)

theorem map_dst_allCells (h : Rows (axis :: rest)) (invScales : List Nat) :
    (allCells invScales axis rest).map QuantCell.dst =
      intRange 0 ((axis :: rest).map WalkAxis.extent).prod := by
  have hmoves := h.map_snd_visits 0 0
  have hid : ((intRange 0 ((axis :: rest).map WalkAxis.extent).prod).map fun k => (0 : Int) + k) =
      intRange 0 ((axis :: rest).map WalkAxis.extent).prod := by
    simp
  rw [hid] at hmoves
  rw [← hmoves, visits, allCells, List.map_flatMap, List.map_flatMap]
  refine List.flatMap_congr fun i _ => ?_
  rw [rowCells, cellsOf, List.map_map, h.1.2.1, add_zero, zero_add, zero_add]
  rfl

theorem map_src_allCells (h : Rows (axis :: rest)) (invScales : List Nat) :
    (allCells invScales axis rest).map QuantCell.src =
    (visits (axis :: rest) 0 0).map Prod.fst := by
  rw [visits, allCells, List.map_flatMap, List.map_flatMap]
  refine List.flatMap_congr fun i _ => ?_
  rw [rowCells, cellsOf, List.map_map, h.1.2.1, add_zero, zero_add, zero_add]
  rfl

/-- The ranges of a returned call divide the rows. -/
theorem ParallelFor.partition {threads : Nat} {last minPerWorker : Int} {ranges : List (Int × Int)}
    (h : ParallelFor threads 0 last minPerWorker ranges) (hlast : 0 < last) :
    ∃ parts, Partition 0 parts last ∧ ranges.Perm parts := by
  obtain ⟨pool, c, call, failure, hreach, hcall, hreturned, heq, rfl⟩ := h
  simp only [Prod.mk.injEq] at heq
  obtain ⟨hfirst, hlastEq, -⟩ := heq
  have hsound := (GatherPool.sound_of_reachable hreach).calls c call hcall
  rw [GatherPool.Call.Sound, hreturned] at hsound
  have hcovers := hsound.covers
  rw [GatherPool.Call.Covers, hfirst, hlastEq, if_pos hlast] at hcovers
  obtain ⟨parts, hpartition, hperm⟩ := hcovers
  exact ⟨parts, hpartition, hsound.finished.symm.trans hperm⟩

theorem flatMap_ranges {parts ranges : List (Int × Int)} {last : Int}
    (hpartition : Partition 0 parts last) (hperm : ranges.Perm parts) {γ : Type}
    (body : Int → List γ) :
    (ranges.flatMap fun range => (intRange range.1 range.2).flatMap body).Perm
      ((intRange 0 last).flatMap body) := by
  have hflat := hpartition.flatMap_intRange 0 body
  simp only [zero_add] at hflat
  rw [← hflat]
  exact hperm.flatMap_right _

end SymReloc.Prefold
