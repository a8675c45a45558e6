import SymReloc.Runtime.ChunkSchedule

/-!
# Staging a chunk

A chunk is built in a staging slot: the pad value over its window, then the valid
cells of its rows, gathered against a destination base moved back by the rows
before the chunk.  A worker pool may divide the rows into consecutive ranges.
-/

namespace SymReloc

open Outcome

section Code

variable {ε : Type}

/-- `fillStagingWindow`, as the bits and the copies of its pattern. -/
def fillStagingWindow (bound : BoundPlan) (bytes : Nat) : Outcome ε (Nat × List ByteCopy) :=
  match bound.padRegions with
  | [] => .ok (0, [])
  | region :: _ => do
      -- the loop tests `off + es <= bytes` once more than it runs
      let _ ← mapEach (List.range (bytes / bound.elementSize + 1)) fun e =>
        exactSize (e * bound.elementSize + bound.elementSize)
      pure (region.fillBits, (List.range (bytes / bound.elementSize)).map fun e =>
        { dst := (e * bound.elementSize : Nat), src := 0, bytes := bound.elementSize })

/-- `rebase`: how far before the staging slot element zero of the destination lies. -/
def rebase (bound : BoundPlan) (paddedBegin : Int) : Outcome ε Int := do
  let stride ← fetch bound.dstStrides 0
  let cells ← exactSize (toSize paddedBegin * toSize stride)
  let bytes ← exactSize (cells * bound.elementSize)
  pure bytes

/-- The gathers of consecutive row ranges. -/
def gatherParts (bound : BoundPlan) (parts : List (Int × Int)) : Outcome ε (List ByteCopy) := do
  let runs ← mapEach parts fun part => gatherChunk bound part.1 part.2
  pure runs.flatten

/-- The gather of a chunk into its slot, its rows divided into `parts`. -/
def chunkCopies (bound : BoundPlan) (chunk : Chunk) (parts : List (Int × Int)) :
    Outcome ε (List ByteCopy) :=
  if chunk.validBegin < chunk.validEnd then do
    let base ← rebase bound chunk.paddedBegin
    let copies ← gatherParts bound parts
    pure (copies.map (ByteCopy.rebase base))
  else .ok []

/-- `forwardHostGather`, the rows divided into `parts` where they are disjoint. -/
def forwardHostGather (bound : BoundPlan) (parts : List (Int × Int)) :
    Outcome ε ((Nat × List ByteCopy) × List ByteCopy) := do
  let fill ← fillDst bound
  let span ← innerSpan bound.extents bound.dstStrides
  let stride ← fetch bound.dstStrides 0
  let next ← add64 span 1
  let outer ← fetch bound.extents 0
  let _ ← mul64 stride bound.elementSize
  let copies ← gatherParts bound (if next ≤ stride then parts else [(0, outer)])
  pure (fill, copies)

end Code

/-- The ranges follow each other from `start` to `finish`, and none is empty. -/
def Partition : Int → List (Int × Int) → Int → Prop
  | start, [], finish => start = finish
  | start, part :: rest, finish => part.1 = start ∧ part.1 < part.2 ∧ Partition part.2 rest finish

variable {ε : Type} {bound : BoundPlan} {axis : WalkAxis} {axes : List WalkAxis}
  {parts : List (Int × Int)} {start finish d s : Int} {copies : List ByteCopy}

theorem Partition.le (h : Partition start parts finish) : start ≤ finish := by
  induction parts generalizing start with
  | nil => exact h.le
  | cons part rest ih =>
      obtain ⟨hstart, hlt, hrest⟩ := h
      have := ih hrest
      omega

theorem partition_single (h : start < finish) : Partition start [(start, finish)] finish :=
  ⟨rfl, h, rfl⟩

/-! ### The gather of divided rows -/

/-- The rows of consecutive ranges, together. -/
theorem gathers_join (es : Nat) (axes : List WalkAxis) {middle : Int} (hle : start ≤ middle)
    (hle' : middle ≤ finish) :
    Gathers es axes start finish 0 0 d s ↔
      Gathers es axes start middle 0 0 d s ∨ Gathers es axes middle finish 0 0 d s := by
  constructor
  · rintro ⟨index, j, hvalid, hlo, hhi, hj⟩
    by_cases hmid : index.headI < middle
    · exact .inl ⟨index, j, hvalid, hlo, hmid, hj⟩
    · exact .inr ⟨index, j, hvalid, by omega, hhi, hj⟩
  · rintro (⟨index, j, hvalid, hlo, hhi, hj⟩ | ⟨index, j, hvalid, hlo, hhi, hj⟩)
    · exact ⟨index, j, hvalid, hlo, by omega, hj⟩
    · exact ⟨index, j, hvalid, by omega, hhi, hj⟩

theorem moves_gatherParts (hsize : 0 < bound.elementSize)
    (hextents : ∀ a ∈ bound.walkAxes, 1 ≤ a.extent) (haxes : bound.walkAxes = axis :: axes)
    (hstart : 0 ≤ start) (hparts : Partition start parts finish) (hfinish : finish ≤ axis.extent)
    (hrun : (gatherParts bound parts : Outcome ε _) = .ok copies) :
    Moves copies d s ↔ Gathers bound.elementSize bound.walkAxes start finish 0 0 d s := by
  induction parts generalizing start copies with
  | nil =>
      obtain rfl : start = finish := hparts
      cases hrun
      simp only [List.flatten_nil, moves_nil, false_iff]
      rintro ⟨index, j, -, hlo, hhi, -⟩
      omega
  | cons part rest ih =>
      obtain ⟨hfirst, hlt, hrest⟩ := hparts
      have hle := hrest.le
      simp only [gatherParts, mapEach, bind_ok_iff, pure_eq, Outcome.ok.injEq] at hrun
      obtain ⟨runs, ⟨run, hhead, others, hothers, rfl⟩, rfl⟩ := hrun
      have hgather : (gatherParts bound rest : Outcome ε _) = .ok others.flatten := by
        rw [gatherParts, hothers, ok_bind, pure_eq]
      have hmoves := ih (by omega) hrest hgather
      rw [List.flatten_cons, moves_append, hmoves, moves_gatherChunk hsize hextents haxes
        (by omega) hlt.le (by omega) hhead, hfirst]
      exact (gathers_join _ _ (by omega) hle).symm

theorem BoundPlan.Admitted.moves_gatherParts (h : bound.Admitted)
    (haxes : bound.walkAxes = axis :: axes) (hstart : 0 ≤ start)
    (hparts : Partition start parts finish) (hfinish : finish ≤ axis.extent)
    (hrun : (gatherParts bound parts : Outcome ε _) = .ok copies) :
    Moves copies d s ↔ Gathers bound.elementSize bound.walkAxes start finish 0 0 d s :=
  SymReloc.moves_gatherParts h.size_pos (fun a ha => (h.padded a ha).1) haxes hstart hparts
    hfinish hrun

theorem exists_gatherParts (h : bound.Admitted) (haxes : bound.walkAxes = axis :: axes)
    (hstart : 0 ≤ start) (hparts : Partition start parts finish) (hfinish : finish ≤ axis.extent)
    (hlast : InBytes bound.elementSize bound.lastCopy) :
    ∃ copies, (gatherParts bound parts : Outcome ε _) = .ok copies := by
  have hall : ∀ part ∈ parts, ∃ run, (gatherChunk bound part.1 part.2 : Outcome ε _) = .ok run := by
    induction parts generalizing start with
    | nil => simp
    | cons part rest ih =>
        obtain ⟨hfirst, hlt, hrest⟩ := hparts
        have hle := hrest.le
        rw [List.forall_mem_cons]
        exact ⟨h.exists_gatherChunk haxes (by omega) hlt (by omega) hlast, ih (by omega) hrest⟩
  obtain ⟨runs, hruns⟩ := exists_mapEach hall
  exact ⟨runs.flatten, by rw [gatherParts, hruns, ok_bind, pure_eq]⟩

theorem lastCopy_of_gatherParts (h : bound.Admitted) (haxes : bound.walkAxes = axis :: axes)
    (hstart : 0 ≤ start) (hlt : start < axis.extent)
    (hrun : (gatherParts bound [(start, axis.extent)] : Outcome ε _) = .ok copies) :
    InBytes bound.elementSize bound.lastCopy := by
  simp only [gatherParts, mapEach, bind_ok_iff] at hrun
  obtain ⟨runs, ⟨run, hhead, -⟩, -⟩ := hrun
  exact h.lastCopy_of_gatherChunk haxes hstart hlt hhead

/-! ### Pads -/

/-- The bytes of a pattern over `total` bytes. -/
def Fills (es : Nat) (total : Int) (d s : Int) : Prop :=
  (0 ≤ d ∧ d < total) ∧ s = d % es

theorem moves_pattern {es count : Nat} (hes : 0 < es) :
    (∃ e : Nat, e < count ∧ ByteCopy.Moves { dst := (e * es : Nat), src := 0, bytes := es } d s) ↔
      Fills es (count * es : Nat) d s := by
  have hes' : (0 : Int) < es := by exact_mod_cast hes
  constructor
  · rintro ⟨e, he, j, hj, hjlt, rfl, rfl⟩
    have hstep : ((e + 1 : Nat) : Int) * es ≤ count * es :=
      mul_le_mul_of_nonneg_right (by exact_mod_cast he) hes'.le
    have hjlt : j < (es : Int) := hjlt
    simp only [Fills]
    push_cast at hstep ⊢
    rw [add_mul, one_mul] at hstep
    have hpos : (0 : Int) ≤ e * es := by positivity
    refine ⟨⟨by omega, by omega⟩, ?_⟩
    rw [add_comm ((e : Int) * es), Int.add_mul_emod_self_right, Int.emod_eq_of_lt hj hjlt, zero_add]
  · rintro ⟨⟨hd, hlt⟩, rfl⟩
    have hdiv := Int.mul_ediv_add_emod d es
    have hmod := Int.emod_lt_of_pos d hes'
    have hmod0 := Int.emod_nonneg d hes'.ne'
    have hquot : 0 ≤ d / es := Int.ediv_nonneg hd hes'.le
    have hcast : ((d / es).toNat : Int) = d / es := by omega
    refine ⟨(d / es).toNat, ?_, d % es, hmod0, hmod, ?_, (zero_add _).symm⟩
    · have : d / es < count := Int.ediv_lt_of_lt_mul hes' (by exact_mod_cast hlt)
      omega
    · push_cast
      rw [hcast, mul_comm]
      exact hdiv.symm

theorem product_eq_ok {extents : List Int} {count result : Int}
    (hrun : (product extents count : Outcome ε Int) = .ok result) :
    result = count * extents.prod := by
  induction extents generalizing count with
  | nil =>
      cases hrun
      simp
  | cons extent rest ih =>
      simp only [product, bind_ok_iff, mul64_eq_ok] at hrun
      obtain ⟨_, ⟨-, rfl⟩, hrest⟩ := hrun
      rw [ih hrest, List.prod_cons, mul_assoc]

theorem exists_product {extents : List Int} (hextents : ∀ extent ∈ extents, 1 ≤ extent)
    {count : Int} (hcount : 1 ≤ count) (hfits : FitsI64 (count * extents.prod)) :
    ∃ result, (product extents count : Outcome ε Int) = .ok result := by
  induction extents generalizing count with
  | nil => exact ⟨count, rfl⟩
  | cons extent rest ih =>
      rw [List.forall_mem_cons] at hextents
      rw [List.prod_cons, ← mul_assoc] at hfits
      have hprod : 1 ≤ rest.prod := one_le_prod hextents.2
      have hhead : 1 ≤ count * extent := one_le_mul_of_one_le_of_one_le hcount hextents.1
      have hle : count * extent ≤ count * extent * rest.prod :=
        le_mul_of_one_le_right (by omega) hprod
      have hstep : FitsI64 (count * extent) := by
        unfold FitsI64 at hfits ⊢
        omega
      rw [product, mul64, exact64_of_fits hstep, ok_bind]
      exact ih hextents.2 hhead hfits

/-- The fill of the plan's pads. -/
def BoundPlan.fillBits (bound : BoundPlan) : Nat :=
  (bound.padRegions.head?.map PadRegion.fillBits).getD 0

theorem moves_fillPattern {es : Nat} (hes : 0 < es) {count : Int} (hcount : 0 ≤ count)
    (hrun : (fillPattern es count : Outcome ε _) = .ok copies) :
    Moves copies d s ↔ Fills es (count * es) d s := by
  have hmap : copies = (intRange 0 count).map fun e =>
      { dst := e * es, src := 0, bytes := es } := by
    refine eq_map_of_mapEach hrun fun e _ copy hcopy => ?_
    simp only [bind_ok_iff, mul64_eq_ok] at hcopy
    obtain ⟨_, ⟨-, rfl⟩, ⟨⟩⟩ := hcopy
    rfl
  have hcast : ((count.toNat * es : Nat) : Int) = count * es := by
    rw [Nat.cast_mul, Int.toNat_of_nonneg hcount]
  rw [hmap, moves_map, ← hcast, ← moves_pattern hes]
  constructor
  · rintro ⟨e, he, hmoves⟩
    rw [mem_intRange] at he
    refine ⟨e.toNat, by omega, ?_⟩
    rwa [Nat.cast_mul, Int.toNat_of_nonneg he.1]
  · rintro ⟨e, he, hmoves⟩
    refine ⟨e, mem_intRange.mpr ⟨by omega, by omega⟩, ?_⟩
    rwa [Nat.cast_mul] at hmoves

theorem exists_fillPattern {es : Nat} (hes : 0 < es) {count : Int} (hcount : 0 ≤ count)
    (hfits : count * es < 2 ^ 63) :
    ∃ copies, (fillPattern es count : Outcome ε _) = .ok copies ∧
      ∀ d s, Moves copies d s ↔ Fills es (count * es) d s := by
  have hall : ∀ e ∈ intRange 0 count, ∃ copy, (do
      let dst ← mul64 e es
      pure { dst, src := 0, bytes := es } : Outcome ε ByteCopy) = .ok copy := by
    intro e he
    rw [mem_intRange] at he
    have hbyte : InBytes es e := InBytes.mono ⟨hcount, hfits⟩ he.1 he.2.le
    rw [mul64, exact64_of_fits hbyte.fits_mul, ok_bind]
    exact ⟨_, rfl⟩
  obtain ⟨copies, hcopies⟩ := exists_mapEach hall
  exact ⟨copies, hcopies, fun d s => moves_fillPattern hes hcount hcopies⟩

/-- The fill of the whole destination. -/
theorem exists_fillDst (h : bound.Admitted) : ∃ fill, (fillDst bound : Outcome ε _) = .ok fill ∧
    fill.1 = bound.fillBits ∧ ∀ d s, Moves fill.2 d s ↔
      bound.padRegions ≠ [] ∧ Fills bound.elementSize bound.totalBytes d s := by
  unfold fillDst BoundPlan.fillBits
  cases hregions : bound.padRegions with
  | nil => exact ⟨(0, []), rfl, rfl, fun d s => by simp⟩
  | cons region rest =>
      have hcells : (bound.walkAxes.map WalkAxis.padded).prod = bound.cells := by
        unfold BoundPlan.cells BoundPlan.targetAxes
        induction bound.walkAxes with
        | nil => rfl
        | cons axis axes ih =>
            simp only [List.map_cons, List.prod_cons, Strides.cells, ih]
            rfl
      have hpadded : ∀ extent ∈ bound.walkAxes.map WalkAxis.padded, 1 ≤ extent := by
        intro extent hmem
        obtain ⟨a, ha, rfl⟩ := List.mem_map.mp hmem
        obtain ⟨hextent, hlo, hhi⟩ := h.padded a ha
        unfold WalkAxis.padded
        omega
      have hfits := h.cells_inBytes.fits h.size_pos
      obtain ⟨count, hcount⟩ := exists_product (ε := ε) hpadded (le_refl 1)
        (by rwa [hcells, one_mul])
      have hvalue := product_eq_ok hcount
      rw [hcells, one_mul] at hvalue
      subst hvalue
      obtain ⟨copies, hcopies, hmoves⟩ := exists_fillPattern (ε := ε) h.size_pos
        h.cells_inBytes.1 h.cells_inBytes.2
      refine ⟨(region.fillBits, copies), ?_, rfl, fun d s => ?_⟩
      · have hwidened := h.widened ε
        rw [hregions] at hwidened
        simp only [hwidened, ok_bind, hcount, hcopies, pure_eq]
      · rw [hmoves, ← h.total]
        simp

theorem fillStagingWindow_eq_ok (hsize : 0 < bound.elementSize) {count : Nat}
    {fill : Nat × List ByteCopy}
    (hrun : (fillStagingWindow bound (count * bound.elementSize) : Outcome ε _) = .ok fill) :
    fill.1 = bound.fillBits ∧ ∀ d s, Moves fill.2 d s ↔ bound.padRegions ≠ [] ∧
      Fills bound.elementSize (count * bound.elementSize : Nat) d s := by
  unfold fillStagingWindow at hrun
  unfold BoundPlan.fillBits
  rw [Nat.mul_div_cancel count hsize] at hrun
  cases hregions : bound.padRegions with
  | nil =>
      rw [hregions] at hrun
      cases hrun
      simp
  | cons region rest =>
      simp only [hregions, bind_ok_iff, pure_eq, Outcome.ok.injEq] at hrun
      obtain ⟨-, -, rfl⟩ := hrun
      refine ⟨rfl, fun d s => ?_⟩
      rw [moves_map, ← moves_pattern hsize]
      simp

/-- The fill of a staging window of whole elements. -/
theorem exists_fillStagingWindow (h : bound.Admitted) {count : Nat}
    (hbytes : (count * bound.elementSize : Nat) ≤ bound.totalBytes) :
    ∃ fill, (fillStagingWindow bound (count * bound.elementSize) : Outcome ε _) = .ok fill ∧
      fill.1 = bound.fillBits ∧ ∀ d s, Moves fill.2 d s ↔ bound.padRegions ≠ [] ∧
        Fills bound.elementSize (count * bound.elementSize : Nat) d s := by
  have hok : ∃ fill, (fillStagingWindow bound (count * bound.elementSize) : Outcome ε _) =
      .ok fill := by
    unfold fillStagingWindow
    rw [Nat.mul_div_cancel count h.size_pos]
    cases hregions : bound.padRegions with
    | nil => exact ⟨_, rfl⟩
    | cons region rest =>
        have htests : ∀ e ∈ List.range (count + 1), ∃ result,
            (exactSize (e * bound.elementSize + bound.elementSize) : Outcome ε Nat) =
              .ok result := by
          intro e he
          rw [List.mem_range] at he
          have hle : e * bound.elementSize ≤ count * bound.elementSize :=
            Nat.mul_le_mul_right _ (by omega)
          have hfits := h.fits.2
          have hsize := h.size_lt
          exact ⟨_, exactSize_of_fits (by unfold FitsSize; omega)⟩
        obtain ⟨tests, htests⟩ := exists_mapEach htests
        simp only [htests, ok_bind, pure_eq]
        exact ⟨_, rfl⟩
  obtain ⟨fill, hfill⟩ := hok
  exact ⟨fill, hfill, fillStagingWindow_eq_ok h.size_pos hfill⟩

/-! ### The gather of a chunk -/

variable {chunk : Chunk}

theorem Chunk.Sound.gathers_holds (hchunk : chunk.Sound bound axis) (h : bound.Admitted)
    (haxes : bound.walkAxes = axis :: axes) (hmoves : Gathers bound.elementSize bound.walkAxes
      chunk.validBegin chunk.validEnd 0 0 d s) : chunk.Holds d := by
  obtain ⟨index, j, hvalid, hlo, hhi, hj, hjlt, rfl, -⟩ := hmoves
  rw [zero_add, dstOffset_eq]
  refine (hchunk.owns _ j (hvalid.inBox_target h.padded) hj hjlt).mpr ?_
  have hrow := (hchunk.rows index.headI).mp ⟨hlo, hhi⟩
  rw [haxes] at hvalid ⊢
  cases hvalid with
  | cons hi _ => exact hrow.2

/-- A cell of the chunk's window that is gathered at all is gathered by the chunk. -/
theorem Chunk.Sound.gathers_of_holds (hchunk : chunk.Sound bound axis) (h : bound.Admitted)
    (haxes : bound.walkAxes = axis :: axes) (hholds : chunk.Holds d)
    (hmoves : Gathers bound.elementSize bound.walkAxes 0 axis.extent 0 0 d s) :
    Gathers bound.elementSize bound.walkAxes chunk.validBegin chunk.validEnd 0 0 d s := by
  obtain ⟨index, j, hvalid, hlo, hhi, hj, hjlt, rfl, hs⟩ := hmoves
  have hcoords : chunk.paddedBegin ≤ index.headI + axis.lo ∧
      index.headI + axis.lo < chunk.paddedEnd := by
    rw [zero_add, dstOffset_eq] at hholds
    have hrow := (hchunk.owns _ j (hvalid.inBox_target h.padded) hj hjlt).mp hholds
    rw [haxes] at hvalid hrow
    cases hvalid with
    | cons hi _ => exact hrow
  have hrange := (hchunk.rows index.headI).mpr ⟨⟨hlo, hhi⟩, hcoords⟩
  exact ⟨index, j, hvalid, hrange.1, hrange.2, hj, hjlt, rfl, hs⟩

theorem rebase_eq (hchunk : chunk.Sound bound axis) (h : bound.Admitted)
    (haxes : bound.walkAxes = axis :: axes)
    (hrow : FitsI64 (axis.dstStride * bound.elementSize))
    (hoffset : chunk.byteOffset ≤ bound.totalBytes) :
    (rebase bound chunk.paddedBegin : Outcome ε Int) = .ok chunk.byteOffset := by
  have hmem : axis ∈ bound.walkAxes := by rw [haxes]; simp
  have hds := h.writes axis hmem
  have hcells : InBytes bound.elementSize (chunk.paddedBegin * axis.dstStride) := by
    refine ⟨mul_nonneg hchunk.first.1 hds, ?_⟩
    rw [← hchunk.base]
    exact lt_of_le_of_lt hoffset h.fits.2
  have hbegin : FitsI64 chunk.paddedBegin := by
    have hpadded : axis.padded ≤ bound.cells :=
      h.forward.extent_le_cells (List.mem_map_of_mem (f := WalkAxis.target) hmem)
    exact (h.cells_inBytes.mono hchunk.first.1 (by have := hchunk.first.2; omega)).fits h.size_pos
  have hstep : InBytes bound.elementSize axis.dstStride := ⟨hds, hrow.2⟩
  have hproduct : ((toSize chunk.paddedBegin * toSize axis.dstStride : Nat) : Int) =
      chunk.paddedBegin * axis.dstStride := by
    rw [Nat.cast_mul, toSize_of_nonneg hchunk.first.1 hbegin,
      toSize_of_nonneg hds (hstep.fits h.size_pos)]
  have hbytes : ((toSize chunk.paddedBegin * toSize axis.dstStride * bound.elementSize : Nat) :
      Int) = chunk.byteOffset := by
    rw [Nat.cast_mul, hproduct, hchunk.base]
  have hfits : FitsSize (toSize chunk.paddedBegin * toSize axis.dstStride) := by
    have := (hcells.fits h.size_pos).2
    unfold FitsSize
    omega
  have hfits' : FitsSize
      (toSize chunk.paddedBegin * toSize axis.dstStride * bound.elementSize) := by
    have := h.fits.2
    unfold FitsSize
    omega
  rw [rebase, fetch_stride h haxes, ok_bind, exactSize_of_fits hfits, ok_bind,
    exactSize_of_fits hfits', ok_bind,
    pure_eq, hbytes]

theorem moves_chunkCopies (hchunk : chunk.Sound bound axis) (h : bound.Admitted)
    (haxes : bound.walkAxes = axis :: axes)
    (hrow : FitsI64 (axis.dstStride * bound.elementSize))
    (hoffset : chunk.byteOffset ≤ bound.totalBytes)
    (hparts : Partition chunk.validBegin parts chunk.validEnd)
    (hrun : (chunkCopies bound chunk parts : Outcome ε _) = .ok copies) :
    Moves copies d s ↔ Gathers bound.elementSize bound.walkAxes chunk.validBegin chunk.validEnd
      0 0 (d + chunk.byteOffset) s := by
  obtain ⟨hvalid, -, hend⟩ := hchunk.valid
  unfold chunkCopies at hrun
  split at hrun
  · rw [rebase_eq hchunk h haxes hrow hoffset, ok_bind] at hrun
    simp only [bind_ok_iff, pure_eq, Outcome.ok.injEq] at hrun
    obtain ⟨gathered, hgathered, rfl⟩ := hrun
    rw [moves_rebase, h.moves_gatherParts haxes hvalid hparts hend hgathered]
  · rename_i hempty
    cases hrun
    simp only [moves_nil, false_iff]
    rintro ⟨index, j, -, hlo, hhi, -⟩
    omega

theorem exists_chunkCopies (hchunk : chunk.Sound bound axis) (h : bound.Admitted)
    (haxes : bound.walkAxes = axis :: axes)
    (hrow : FitsI64 (axis.dstStride * bound.elementSize))
    (hoffset : chunk.byteOffset ≤ bound.totalBytes)
    (hparts : Partition chunk.validBegin parts chunk.validEnd)
    (hlast : InBytes bound.elementSize bound.lastCopy) :
    ∃ copies, (chunkCopies bound chunk parts : Outcome ε _) = .ok copies := by
  obtain ⟨hvalid, -, hend⟩ := hchunk.valid
  unfold chunkCopies
  split
  · obtain ⟨gathered, hgathered⟩ := exists_gatherParts (ε := ε) h haxes hvalid hparts hend hlast
    exact ⟨_, by rw [rebase_eq hchunk h haxes hrow hoffset, ok_bind, hgathered, ok_bind, pure_eq]⟩
  · exact ⟨[], rfl⟩

end SymReloc
