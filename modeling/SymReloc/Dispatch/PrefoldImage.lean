import SymReloc.Dispatch.PrefoldRows
import SymReloc.Runtime.TypedCells

/-!
# The image of a prefold

Where the layout is packed and there is a scale for every row, a prefold makes an artifact:
whatever the pool does, each cell of the image is written once, with the value of the element that
the walk stores there.
-/

namespace SymReloc.Prefold

open Outcome Writes Quant

/-- A layout that the kernels run over. -/
structure Foldable (bound : BoundPlan) (axis : WalkAxis) (rest : List WalkAxis) : Prop where
  axes : bound.walkAxes = axis :: rest
  rows : Rows (axis :: rest)
  rank : rest ≠ []
  extents : bound.extents = (axis :: rest).map WalkAxis.extent
  strides : bound.dstStrides = (axis :: rest).map WalkAxis.dstStride
  bare : bound.padRegions = []

variable {bound : BoundPlan} {axis : WalkAxis} {rest : List WalkAxis} {spec : OutputSpec}
  {invScales : List Nat} {threads : Nat}

namespace Foldable

theorem rowElements_eq (h : Foldable bound axis rest) :
    rowElements bound = (rest.map WalkAxis.extent).prod := by
  rw [rowElements, h.extents]
  rfl

theorem innerSpan_eq (h : Foldable bound axis rest) :
    innerSpan bound + 1 = (rest.map WalkAxis.extent).prod := by
  rw [← h.rows.2.2.reach, innerSpan, h.extents, h.strides, List.map_cons, List.map_cons,
    List.tail_cons, List.tail_cons, List.zip_map, List.map_map]
  have hself : rest.zip rest = rest.map fun axis => (axis, axis) := by
    rw [List.zip_eq_zipWith, List.zipWith_self]
  rw [hself, List.map_map]
  rfl

theorem zip_strides (h : Foldable bound axis rest) :
    bound.extents.zip bound.dstStrides =
      (axis :: rest).map fun axis => (axis.extent, axis.dstStride) := by
  have hself : (axis :: rest).zip (axis :: rest) = (axis :: rest).map fun axis => (axis, axis) := by
    rw [List.zip_eq_zipWith, List.zipWith_self]
  rw [h.extents, h.strides, List.zip_map, hself, List.map_map]
  rfl

/-- The innermost axis is contiguous. -/
theorem getLast_strides (h : Foldable bound axis rest) : bound.dstStrides.getLast? = some 1 := by
  have hlast : ∀ axes : List WalkAxis, axes ≠ [] → Rows axes →
      (axes.map WalkAxis.dstStride).getLast? = some 1 := by
    intro axes hne hrows
    induction axes with
    | nil => exact absurd rfl hne
    | cons axis axes ih =>
        cases axes with
        | nil => exact congrArg some hrows.2.1
        | cons next axes =>
            rw [List.map_cons, List.map_cons, List.getLast?_cons_cons]
            exact ih (by simp) hrows.2.2
  rw [h.strides]
  exact hlast _ (by simp) h.rows

theorem level (h : Foldable bound axis rest) (hsame : bound.srcStrides = bound.dstStrides) :
    ∀ a ∈ axis :: rest, a.srcStride = a.dstStride := by
  intro a ha
  rw [← h.axes, BoundPlan.walkAxes, h.bare] at ha
  obtain ⟨⟨extent, src, dst⟩, hentry, rfl⟩ := List.mem_map.mp ha
  have hpair := (List.of_mem_zip hentry).2
  rw [hsame, List.zip_eq_zipWith, List.zipWith_self] at hpair
  obtain ⟨stride, -, heq⟩ := List.mem_map.mp hpair
  cases heq
  rfl

theorem imageBytes_eq (h : Foldable bound axis rest) (hsize : bound.elementSize = 4)
    (htotal : bound.totalBytes = ((axis :: rest).map WalkAxis.extent).prod * 4)
    (hspec : spec = .s8QuantPack → bound.srcStrides = bound.dstStrides) :
    imageBytes bound spec = some ((axis :: rest).map WalkAxis.extent).prod := by
  have hrank : 2 ≤ bound.extents.length := by
    obtain ⟨next, inner, rfl⟩ := List.exists_cons_of_ne_nil h.rank
    rw [h.extents]
    simp
  have hcount : ((axis :: rest).map WalkAxis.extent).prod =
      bound.totalBytes.tdiv bound.elementSize := by
    rw [htotal, hsize]
    exact (Int.mul_tdiv_cancel _ (by decide)).symm
  rw [imageBytes, h.zip_strides, h.rows.packedElements_eq]
  simp only [guard, hsize, h.bare, hrank, h.getLast_strides, true_and, if_true, Option.pure_def,
    Option.bind_eq_bind, Option.bind_some]
  rw [hsize] at hcount
  rw [if_pos hcount, Option.bind_some, if_pos hspec, Option.bind_some]

/-- One kernel makes the elements of its rows. -/
theorem run_kernel (h : Foldable bound axis rest) (hscales : axis.extent ≤ invScales.length)
    (hspec : spec = .s8QuantPack → bound.srcStrides = bound.dstStrides) {first last : Int}
    (hfirst : 0 ≤ first) (hlast : last ≤ axis.extent) :
    (Kernel.gather first last).run bound invScales =
        .ok ((intRange first last).flatMap (rowCells invScales axis rest)) ∧
      (spec = .s8QuantPack → (Kernel.pack first last).run bound invScales =
        .ok ((intRange first last).flatMap (rowCells invScales axis rest))) := by
  constructor
  · rw [Kernel.run, gatherQuantizeF32S8, h.axes]
    exact quantWalk_rows h.rows h.rank hfirst (by omega)
  · intro hpack
    rw [Kernel.run, h.rowElements_eq]
    exact quantizePack_rows h.rows (h.level (hspec hpack)) hfirst (by omega)

/-- The kernels of a pool make the elements of all rows. -/
theorem launches (h : Foldable bound axis rest) (hscales : axis.extent ≤ invScales.length)
    (hspec : spec = .s8QuantPack → bound.srcStrides = bound.dstStrides) {kernels : List Kernel}
    (hlaunches : Launches bound threads spec kernels) :
    ∃ traces, mapEach kernels (Kernel.run bound invScales) = .ok traces ∧
      traces.flatten.Perm (allCells invScales axis rest) := by
  have hextent := h.rows.1.1
  have hranges : ∀ {launch : Int → Int → Kernel} {ranges : List (Int × Int)} {floor : Int},
      (∀ first last, 0 ≤ first → last ≤ axis.extent → (launch first last).run bound invScales =
        .ok ((intRange first last).flatMap (rowCells invScales axis rest))) →
      ParallelFor threads 0 axis.extent floor ranges →
      ∃ traces, mapEach (ranges.map fun range => launch range.1 range.2)
          (Kernel.run bound invScales) = .ok traces ∧
        traces.flatten.Perm (allCells invScales axis rest) := by
    intro launch ranges floor hrun hparallel
    obtain ⟨parts, hpartition, hperm⟩ := hparallel.partition (by omega)
    refine ⟨ranges.map fun range => (intRange range.1 range.2).flatMap
      (rowCells invScales axis rest), ?_, ?_⟩
    · rw [mapEach_map]
      refine mapEach_of_ok fun range hrange => ?_
      have hbounds := hpartition.bounds (hperm.mem_iff.mp hrange)
      exact hrun range.1 range.2 hbounds.1 hbounds.2.2
    · rw [← List.flatMap_def]
      exact flatMap_ranges hpartition hperm _
  have hkernel := fun first last (hfirst : (0 : Int) ≤ first) (hlast : last ≤ axis.extent) =>
    h.run_kernel hscales hspec hfirst hlast
  cases spec with
  | s8GatherQuant =>
      obtain ⟨outer, houter, stride, hstride, hlaunches⟩ := hlaunches
      rw [h.extents, List.map_cons, List.head?_cons, Option.mem_some_iff] at houter
      rw [h.strides, List.map_cons, List.head?_cons, Option.mem_some_iff] at hstride
      subst houter hstride
      rw [h.innerSpan_eq, h.rows.2.1, if_neg (lt_irrefl _)] at hlaunches
      obtain ⟨ranges, hparallel, rfl⟩ := hlaunches
      exact hranges (fun first last hfirst hlast => (hkernel first last hfirst hlast).1) hparallel
  | s8QuantPack =>
      obtain ⟨outer, houter, ranges, hparallel, rfl⟩ := hlaunches
      rw [h.extents, List.map_cons, List.head?_cons, Option.mem_some_iff] at houter
      subst houter
      exact hranges (fun first last hfirst hlast => (hkernel first last hfirst hlast).2 rfl)
        hparallel

end Foldable

/-! ### Cells that are written once -/

/-- Writes to different cells all stay. -/
theorem run_of_nodup {α : Type} {writes : List (Write α)} (h : (writes.map Write.cell).Nodup)
    {write : Write α} (hmem : write ∈ writes) (memory : Memory α) :
    run writes memory write.cell = write.value := by
  rw [run_apply]
  cases hlast : last writes write.cell with
  | none => exact absurd rfl (last_eq_none.mp hlast write hmem)
  | some value =>
      obtain ⟨other, hother, hcell, rfl⟩ := exists_of_last hlast
      rw [List.inj_on_of_nodup_map h hother hmem hcell]
      rfl

/-- The workers' writes are to different cells when all of them together are. -/
theorem apart_of_nodup {α : Type} {lists : List (List (Write α))}
    (h : (lists.flatten.map Write.cell).Nodup) : Writes.Apart lists := by
  rw [List.map_flatten, List.nodup_flatten] at h
  refine (List.pairwise_map.mp h.2).imp fun {left right} hdisjoint x hx y hy heq => ?_
  exact hdisjoint (List.mem_map_of_mem hx) (heq ▸ List.mem_map_of_mem hy)

/-- The artifact of a layout: its elements are those of the walk, one for each cell of the image,
    and each cell has the value of its element. -/
structure PrefoldArtifact.Folds (artifact : PrefoldArtifact) (axis : WalkAxis)
    (rest : List WalkAxis) (invScales : List Nat) (source : Memory Nat) : Prop where
  bytes : artifact.bytes = ((axis :: rest).map WalkAxis.extent).prod
  cells : artifact.cells.Perm (allCells invScales axis rest)
  image : ∀ cell ∈ artifact.cells, artifact.image cell.dst = (cell.write source).value

theorem nodup_cells (h : Rows (axis :: rest)) {cells : List QuantCell}
    (hcells : cells.Perm (allCells invScales axis rest)) (source : Memory Nat) :
    ((cells.map (QuantCell.write source)).map Write.cell).Nodup := by
  rw [List.map_map]
  have hperm := hcells.map QuantCell.dst
  rw [map_dst_allCells h] at hperm
  exact hperm.nodup_iff.mpr (nodup_intRange _ _)

/-- A prefold with a scale for every row. -/
theorem Foldable.prefolds (h : Foldable bound axis rest) (hsize : bound.elementSize = 4)
    (htotal : bound.totalBytes = ((axis :: rest).map WalkAxis.extent).prod * 4)
    (hspec : spec = .s8QuantPack → bound.srcStrides = bound.dstStrides)
    (hscales : axis.extent ≤ invScales.length) {source memory : Memory Nat}
    {result : Outcome ExecutionError (Option PrefoldArtifact)}
    (hresult : Prefolds bound source spec invScales threads (some memory) result) :
    ∃ artifact, result = .ok (some artifact) ∧ artifact.Folds axis rest invScales source := by
  unfold Prefolds at hresult
  rw [h.imageBytes_eq hsize htotal hspec] at hresult
  obtain ⟨kernels, hlaunches, hresult⟩ := hresult
  obtain ⟨traces, hrun, hperm⟩ := h.launches hscales hspec hlaunches
  rw [hrun] at hresult
  obtain ⟨history, hinterleaves, rfl⟩ := hresult
  refine ⟨_, rfl, rfl, hperm, fun cell hcell => ?_⟩
  have hnodup := nodup_cells h.rows hperm source
  have hflatten : (traces.map (List.map (QuantCell.write source))).flatten =
      traces.flatten.map (QuantCell.write source) := by
    rw [List.map_flatten]
  have hapart : Writes.Apart (traces.map (List.map (QuantCell.write source))) :=
    apart_of_nodup (by rw [hflatten]; exact hnodup)
  dsimp only
  rw [run_interleaved hinterleaves hapart, hflatten]
  exact run_of_nodup hnodup (List.mem_map_of_mem hcell) memory

end SymReloc.Prefold
