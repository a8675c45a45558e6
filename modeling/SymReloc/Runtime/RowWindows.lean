import SymReloc.Runtime.HostCalls

/-!
# Row windows

The windows of `executeHostChunk` are runs of padded rows.  A chunk that passes the
checks lies inside the result, and its valid rows are those of its padded ones.
-/

namespace SymReloc

open Outcome

/-! ### Schedules of rows -/

/-- The valid rows of a chunk are those of its padded ones. -/
def Chunk.Clamped (lo valid : Int) (chunk : Chunk) : Prop :=
  chunk.validBegin = min (max (chunk.paddedBegin - lo) 0) valid ∧
    chunk.validEnd = max chunk.validBegin (min (chunk.paddedEnd - lo) valid)

theorem clamped_cutChunks {ε : Type} {lo valid rowBytes rowsPerChunk paddedOuter pb : Int}
    {fuel : Nat} {chunks : List Chunk}
    (hrun : (cutChunks lo valid rowBytes rowsPerChunk paddedOuter fuel pb : Outcome ε _) =
      .ok chunks) : ∀ chunk ∈ chunks, chunk.Clamped lo valid := by
  induction fuel generalizing pb chunks with
  | zero =>
      cases hrun
      simp
  | succ fuel ih =>
      rw [cutChunks] at hrun
      by_cases hlt : pb < paddedOuter
      · simp only [if_pos hlt, bind_ok_iff, cutChunk, sub64_eq_ok, add64_eq_ok, mul64_eq_ok,
          pure_eq, Outcome.ok.injEq] at hrun
        obtain ⟨chunk, ⟨_, ⟨-, rfl⟩, pe, ⟨-, -⟩, _, ⟨-, rfl⟩, _, ⟨-, rfl⟩, _, -, _, -, _, -, rfl⟩,
          rest, hrest, rfl⟩ := hrun
        rw [List.forall_mem_cons]
        exact ⟨⟨rfl, rfl⟩, ih hrest⟩
      · rw [if_neg hlt] at hrun
        cases hrun
        simp

/-- A schedule of disjoint rows. -/
structure ChunkSchedule.Rowed (bound : BoundPlan) (axis : WalkAxis) (axes : List WalkAxis)
    (schedule : ChunkSchedule) : Prop where
  disjoint : Strides.reach (axes.map WalkAxis.target) + 1 ≤ axis.dstStride
  outerLo : schedule.outerLo = axis.lo
  rowBytes : schedule.rowBytes = axis.dstStride * bound.elementSize
  rowPos : 0 < schedule.rowBytes
  tiles : Tiles 0 schedule.chunks (axis.padded * schedule.rowBytes)
  nonempty : schedule.chunks ≠ []
  chunks : ∀ chunk ∈ schedule.chunks,
    chunk.Cut axis.lo axis.extent schedule.rowBytes axis.padded
  valid : ∀ chunk ∈ schedule.chunks, chunk.Clamped axis.lo axis.extent

theorem BoundPlan.Laid.planChunks_rows {ε : Type} {bound : BoundPlan} {axis : WalkAxis}
    {axes : List WalkAxis} {schedule : ChunkSchedule} (h : bound.Laid)
    (haxes : bound.walkAxes = axis :: axes) {nBuffers : Int} {chunkSizeOverride : Nat}
    (hrun : (planChunks bound nBuffers chunkSizeOverride : Outcome ε _) = .ok schedule)
    (hserial : schedule.serialized = false) : schedule.Rowed bound axis axes := by
  have hmem : axis ∈ bound.walkAxes := by rw [haxes]; simp
  obtain ⟨hextent, ⟨hlo, hhi⟩, hstride⟩ := h.axes axis hmem
  have hes : (0 : Int) < bound.elementSize := by exact_mod_cast h.size
  have hsum : axis.extent + axis.lo + axis.hi = axis.padded := rfl
  simp only [planChunks, bind_ok_iff, h.strides, h.outer axis axes haxes, h.extents, haxes,
    List.map_cons, fetch_eq_ok, List.getElem?_cons_zero, Option.some.injEq, mul64_eq_ok,
    add64_eq_ok] at hrun
  obtain ⟨padded, hpadded, _, rfl, _, ⟨-, rfl⟩, _, rfl, _, ⟨-, rfl⟩, _, ⟨hfits, rfl⟩,
    span, hspan, _, ⟨-, rfl⟩, hschedule⟩ := hrun
  rw [← List.map_cons (f := WalkAxis.extent), ← haxes, ← h.extents] at hpadded
  have hwidened := h.padded _ _ hpadded
  rw [hwidened, haxes] at hspan
  have hreach := innerSpanFrom_eq_ok hspan
  simp only [List.map_cons, List.zip_cons_cons, List.tail_cons, List.zip_map', List.map_map,
    zero_add] at hreach
  change span = Strides.reach (axes.map WalkAxis.target) at hreach
  rw [hsum, hreach] at hschedule
  split at hschedule
  · cases hschedule
    cases hserial
  · rename_i hrows
    rw [not_or, not_not, not_le] at hrows
    obtain ⟨hdisjoint, hpaddedPos⟩ := hrows
    have hinner := Strides.Forward.reach_nonneg (fun target htarget => h.forward target (by
      unfold BoundPlan.targetAxes
      rw [haxes, List.map_cons]
      exact List.mem_cons_of_mem _ htarget) : Strides.Forward (axes.map WalkAxis.target))
    have hrowPos : 0 < axis.dstStride * bound.elementSize := mul_pos (by omega) hes
    simp only [planRows, bind_ok_iff, mul64_eq_ok, pure_eq, Outcome.ok.injEq] at hschedule
    obtain ⟨target, -, chunks, hchunks, _, -, rfl⟩ := hschedule
    obtain ⟨hrpc, -⟩ := rowsOfTarget_bounds hpaddedPos (hsum ▸ hfits) target
      (axis.dstStride * bound.elementSize)
    obtain ⟨htiles, hne, hall⟩ := Rows.cuts ⟨hlo, by omega, by omega, hrowPos, hrpc⟩ (le_refl 0)
      (by omega) (by omega) hchunks
    rw [zero_mul] at htiles
    exact ⟨hdisjoint, rfl, rfl, hrowPos, htiles, hne hpaddedPos,
      fun chunk hchunk => (hall chunk hchunk).1, clamped_cutChunks hchunks⟩

/-! ### The result at a boundary -/

namespace Program.Sound

variable {program : Program} {plan : TypedRelocationPlan} {k : Nat}

theorem wire_eq (h : program.Sound plan) (hk : k ≤ program.stages.length) :
    program.wire k = .ok { program.plan.layout with
      elementSize := byteWidth (plan.boundaryType k)
      totalBytes := program.resultElements * byteWidth (plan.boundaryType k) } := by
  rw [Program.wire, Program.bytesAt, h.widthAt_eq hk]
  rfl

/-- The layout at a boundary where the pads have entered. -/
theorem laid_wire (h : program.Sound plan) (hk : k ≤ program.stages.length)
    (hsettled : program.padsSettledBy k = true) {wire : BoundPlan}
    (hwire : program.wire k = .ok wire) :
    wire.Laid ∧ wire.walkAxes = program.plan.layout.walkAxes ∧
      wire.elementSize = byteWidth (plan.boundaryType k) ∧
      wire.totalBytes = program.resultElements * wire.elementSize := by
  rw [h.wire_eq hk, Outcome.ok.injEq] at hwire
  obtain ⟨hfits, hwidth⟩ := h.wires k hk hsettled
  have hlaid := h.laid
  subst hwire
  refine ⟨⟨Nat.pos_of_ne_zero hwidth, hlaid.rank, hlaid.axes, hlaid.extents, hlaid.strides,
    hlaid.outer, hlaid.padded, ?_, hfits⟩, rfl, rfl, rfl⟩
  have helements := h.elements.2
  simp only
  rw [helements]
  rfl

/-- The outermost axis of the walk. -/
theorem walkAxes_eq (h : program.Sound plan) :
    ∃ axis axes, program.plan.layout.walkAxes = axis :: axes :=
  List.exists_cons_of_ne_nil h.laid.rank

theorem fetch_extent (h : program.Sound plan) {axis : WalkAxis} {axes : List WalkAxis}
    (haxes : program.plan.layout.walkAxes = axis :: axes) :
    program.plan.layout.extents[0]? = some axis.extent := by
  rw [h.laid.extents, haxes]
  rfl

end Program.Sound

/-! ### Windows -/

/-- The rows and cells of a checked window. -/
def RowWindow.Resolved (program : Program) (axis : WalkAxis) (axes : List WalkAxis) :
    Option Chunk → RowWindow → Prop
  | none, window => window = ⟨0, axis.extent, 0, program.resultElements⟩
  | some chunk, window =>
      Strides.reach (axes.map WalkAxis.target) + 1 ≤ axis.dstStride ∧
        (0 ≤ chunk.paddedBegin ∧ chunk.paddedBegin < chunk.paddedEnd ∧
          chunk.paddedEnd * axis.dstStride ≤ program.resultElements) ∧
        window.first = min (max (chunk.paddedBegin - axis.lo) 0) axis.extent ∧
        window.last = min (max (chunk.paddedEnd - axis.lo) window.first) axis.extent ∧
        window.origin = chunk.paddedBegin * axis.dstStride ∧
        window.elements = (chunk.paddedEnd - chunk.paddedBegin) * axis.dstStride

section Resolve

variable {program : Program} {plan : TypedRelocationPlan} {toStage width : Nat} {axis : WalkAxis}
  {axes : List WalkAxis} {chunk : Option Chunk} {window : RowWindow}

theorem resolveWindow_eq_ok (hsound : program.Sound plan) (hto : toStage ≤ program.stages.length)
    (hsettled : program.padsSettledBy toStage = true)
    (haxes : program.plan.layout.walkAxes = axis :: axes)
    (hwidth : width = byteWidth (plan.boundaryType toStage))
    (h : resolveWindow program toStage width chunk = .ok window) :
    window.Resolved program axis axes chunk := by
  have hextent := hsound.fetch_extent haxes
  cases chunk with
  | none =>
      simp only [resolveWindow, bind_ok_iff, fetch_eq_ok, hextent, Option.some.injEq, pure_eq,
        Outcome.ok.injEq] at h
      obtain ⟨_, rfl, rfl⟩ := h
      rfl
  | some chunk =>
      simp only [resolveWindow, bind_ok_iff, exists_unit, fetch_eq_ok, hextent, Option.some.injEq,
        require_eq_ok, pure_eq, Outcome.ok.injEq] at h
      obtain ⟨_, rfl, wire, hwire, whole, hwhole, full, hfull, hchecks, hvalid, rfl⟩ := h
      obtain ⟨hserial, hbytes, hbegin, hlt, hend, hoffset, hsize⟩ := hchecks
      obtain ⟨hlaid, hwalk, hes, htotal⟩ := hsound.laid_wire hto hsettled hwire
      have hrowed := hlaid.planChunks_rows (hwalk.trans haxes) hwhole hserial
      -- the first chunk starts at the first row and has all bytes
      have htiles := hrowed.tiles
      obtain ⟨rest, hchunks⟩ : ∃ rest, whole.chunks = full :: rest := by
        cases hc : whole.chunks with
        | nil => exact absurd hc hrowed.nonempty
        | cons first rest =>
            rw [hc] at hfull
            cases hfull
            exact ⟨rest, rfl⟩
      rw [hchunks] at htiles
      have hcut := hrowed.chunks full (by rw [hchunks]; simp)
      have hpos := hrowed.rowPos
      have hzero : full.paddedBegin = 0 := by
        have := hcut.offset.symm.trans htiles.1
        exact (mul_eq_zero.mp this).resolve_right hpos.ne'
      have hnonneg : 0 ≤ wire.totalBytes := by
        have := hlaid.one_le_elements
        rw [hlaid.total]
        positivity
      have hall : full.paddedEnd * whole.rowBytes = wire.totalBytes := by
        have hfullBytes := hcut.bytes
        rw [hzero, sub_zero, hbytes, toSize_of_nonneg hnonneg hlaid.fits] at hfullBytes
        exact hfullBytes.symm
      have hesPos : (0 : Int) < wire.elementSize := by exact_mod_cast hlaid.size
      have hwidth' : (width : Int) = wire.elementSize := by rw [hwidth, hes]
      have hrows : ∀ rows : Int, rows * whole.rowBytes = rows * axis.dstStride * width := by
        intro rows
        rw [hrowed.rowBytes, hwidth', mul_assoc]
      have hinside : chunk.paddedEnd * axis.dstStride ≤ program.resultElements := by
        have hle := mul_le_mul_of_nonneg_right hend hpos.le
        rw [hall, htotal, hrows, ← hwidth'] at hle
        exact le_of_mul_le_mul_right hle (hwidth' ▸ hesPos)
      have hspan : 0 ≤ (chunk.paddedEnd - chunk.paddedBegin) * whole.rowBytes :=
        mul_nonneg (by omega) hpos.le
      have hfits : FitsI64 ((chunk.paddedEnd - chunk.paddedBegin) * whole.rowBytes) := by
        have hle : (chunk.paddedEnd - chunk.paddedBegin) * whole.rowBytes ≤ wire.totalBytes := by
          rw [← hall]
          exact mul_le_mul_of_nonneg_right (by omega) hpos.le
        have := hlaid.fits
        unfold FitsI64 at this ⊢
        omega
      have hlo : whole.outerLo = axis.lo := hrowed.outerLo
      refine ⟨hrowed.disjoint, ⟨hbegin, hlt, hinside⟩, ?_, ?_, ?_, ?_⟩
      · simp only [hlo]
      · simp only [hlo]
      · simp only [hoffset, hrows]
        exact Int.mul_ediv_cancel _ (hwidth' ▸ hesPos).ne'
      · have hcount := toSize_of_nonneg hspan hfits
        simp only
        rw [hsize, hcount, hrows]
        exact Int.mul_ediv_cancel _ (hwidth' ▸ hesPos).ne'

/-- A window has rows of the layout and lies inside the result. -/
theorem RowWindow.Resolved.bounds (hsound : program.Sound plan)
    (haxes : program.plan.layout.walkAxes = axis :: axes)
    (h : window.Resolved program axis axes chunk) :
    (0 ≤ window.first ∧ window.first ≤ window.last ∧ window.last ≤ axis.extent) ∧
      0 ≤ window.origin ∧ window.origin + window.elements ≤ program.resultElements := by
  obtain ⟨hextent, hpads, hstride⟩ := hsound.laid.axes axis (by rw [haxes]; simp)
  have helements : 1 ≤ program.resultElements := by
    rw [hsound.elements.2]
    exact hsound.laid.one_le_elements
  cases chunk with
  | none =>
      obtain rfl : window = ⟨0, axis.extent, 0, program.resultElements⟩ := h
      simp only
      omega
  | some chunk =>
      obtain ⟨-, ⟨hbegin, hlt, hinside⟩, hfirst, hlast, horigin, hcount⟩ := h
      have hfrom := mul_nonneg hbegin hstride
      have hsum : window.origin + window.elements = chunk.paddedEnd * axis.dstStride := by
        rw [horigin, hcount]
        ring
      omega

end Resolve

end SymReloc
