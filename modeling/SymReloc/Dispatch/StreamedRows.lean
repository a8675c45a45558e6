import SymReloc.Dispatch.Streaming

/-!
# The rows of a streamed upload

The chunks of a streamed upload have whole rows, the ranges of the workers too.  What a
worker writes of a window is what one run over all rows leaves there, so that the windows
that are written make up the result of that run (`StreamCall.Rowed`).
-/

namespace SymReloc

open Outcome Writes

/-- One worker writes a window, or fails. -/
theorem executes_chunkWrites (program : Program) (fromStage toStage : Nat) (chunk : Chunk)
    (aligned : Bool) (source memory : Memory Nat) :
    Executes program fromStage toStage (some chunk) aligned source memory
      (chunkWrites program fromStage toStage chunk aligned source >>= fun writes =>
        pure (run writes memory)) := by
  unfold Executes chunkWrites
  cases hcall : prologue program fromStage toStage (some chunk) source with
  | error reason => rfl
  | fault kind => rfl
  | ok call =>
    simp only [ok_bind]
    refine ⟨_, .inl rfl, ?_⟩
    unfold HostCall.soleWork
    split
    · rw [List.map_singleton]
      cases hwork : call.bounded (call.work aligned 0 call.units) with
      | error reason => exact .failed reason (List.mem_singleton_self _)
      | fault kind => exact .faulted kind (List.mem_singleton_self _)
      | ok body =>
        have hhistory : body = (body.map fun write : CellWrite => (0, write)).map Prod.snd := by
          rw [List.map_map, show (Prod.snd ∘ fun write : CellWrite => (0, write)) = id from rfl,
            List.map_id]
        simp only [ok_bind, pure_eq, run_append]
        conv in run body => rw [hhistory]
        exact .written [body] _ rfl (interleaves_single body)
    · simp only [ok_bind, pure_eq, List.append_nil]
      exact .written [] [] rfl (fun k => rfl)

/-- A window that is written by one worker. -/
theorem executes_of_chunkWrites {program : Program} {fromStage toStage : Nat} {chunk : Chunk}
    {aligned : Bool} {source : Memory Nat} {writes : List CellWrite}
    (h : chunkWrites program fromStage toStage chunk aligned source = .ok writes)
    (memory : Memory Nat) :
    Executes program fromStage toStage (some chunk) aligned source memory
      (.ok (run writes memory)) := by
  have hexecutes := executes_chunkWrites program fromStage toStage chunk aligned source memory
  rwa [h, ok_bind, pure_eq] at hexecutes

/-- A window is written inside its cells. -/
theorem chunkWrites_inside {program : Program} {fromStage toStage width : Nat} {chunk : Chunk}
    {aligned : Bool} {source : Memory Nat} {writes : List CellWrite} {window : RowWindow}
    (h : chunkWrites program fromStage toStage chunk aligned source = .ok writes)
    (hwidth : program.widthAt toStage = .ok width)
    (hwindow : resolveWindow program toStage width (some chunk) = .ok window) :
    ∀ write ∈ writes, 0 ≤ write.cell ∧ write.cell < window.elements := by
  simp only [chunkWrites, bind_ok_iff, pure_eq, Outcome.ok.injEq] at h
  obtain ⟨call, hcall, body, hbody, rfl⟩ := h
  have hsame : call.window = window := by
    simp only [prologue, bind_ok_iff, exists_unit, pure_eq, Outcome.ok.injEq, hwidth] at hcall
    obtain ⟨-, -, _, -, _, rfl, _, hresolve, _, -, rfl⟩ := hcall
    rw [hwindow, Outcome.ok.injEq] at hresolve
    exact hresolve.symm
  intro write hwrite
  rcases List.mem_append.mp hwrite with hfill | hmem
  · rw [← hsame]
    cases hbits : call.fill with
    | none => simp [hbits, prefill] at hfill
    | some bits =>
      rw [hbits, prefill, List.mem_map] at hfill
      obtain ⟨cell, hcell, rfl⟩ := hfill
      exact mem_intRange.mp hcell
  · unfold HostCall.soleWork at hbody
    split at hbody
    · simp only [HostCall.bounded, bind_ok_iff] at hbody
      obtain ⟨body', -, hbody⟩ := hbody
      split at hbody
      · rename_i hall
        cases hbody
        exact hsame ▸ hall write hmem
      · cases hbody
    · cases hbody
      simp at hmem

/-- Ranges of one length, the last of them cut. -/
theorem partition_ranges {first last per : Int} (hle : first ≤ last) (hper : 0 < per)
    (count : Nat) :
    Partition first
      (((intRange 0 count).map fun p =>
        (first + p * per, min (first + (p + 1) * per) last)).filter fun range => range.1 < range.2)
      (min (first + count * per) last) := by
  induction count with
  | zero =>
    show first = min (first + ((0 : Nat) : Int) * per) last
    rw [Nat.cast_zero, zero_mul, add_zero, min_eq_left hle]
  | succ count ih =>
    have hsplit : intRange 0 ((count + 1 : Nat) : Int) = intRange 0 count ++ [(count : Int)] := by
      rw [intRange_append (count : Int) (by omega) (by omega), Nat.cast_succ, intRange_one]
    rw [hsplit, List.map_append, List.filter_append]
    refine ih.append ?_
    rw [List.map_singleton, Nat.cast_succ]
    have hnext : (count : Int) * per < ((count : Int) + 1) * per := by
      rw [add_mul, one_mul]
      omega
    by_cases hlt : first + count * per < min (first + (count + 1) * per) last
    · rw [List.filter_cons_of_pos (by simpa only [decide_eq_true_eq] using hlt), List.filter_nil]
      exact ⟨by simp only; omega, hlt, rfl⟩
    · rw [List.filter_cons_of_neg (by simpa only [decide_eq_true_eq] using hlt), List.filter_nil]
      show min _ last = min _ last
      omega

/-- The ranges of a dispatch follow each other and have all rows. -/
theorem partition_parallelRanges {threads first last : Int} (hthreads : 1 ≤ threads)
    (hrows : first < last) (minPerWorker : Int) :
    Partition first (parallelRanges threads first last minPerWorker) last := by
  unfold parallelRanges
  dsimp only
  rw [if_neg (by omega)]
  generalize hparts : min threads (max 1 ((last - first) / max minPerWorker 1)) = parts
  have hpos : 1 ≤ parts := by omega
  generalize hper : (last - first + parts - 1) / parts = per
  have hcover : last - first ≤ parts * per := by
    have := Int.lt_mul_ediv_self_add (x := last - first + parts - 1) (show 0 < parts by omega)
    rw [hper] at this
    omega
  have hperPos : 0 < per := by
    by_contra hle
    have : parts * per ≤ 0 := mul_nonpos_of_nonneg_of_nonpos (by omega) (by omega)
    omega
  have hcount : ((parts.toNat : Nat) : Int) = parts := Int.toNat_of_nonneg (by omega)
  have hranges := partition_ranges hrows.le hperPos parts.toNat
  rw [hcount] at hranges
  rwa [min_eq_right (by omega)] at hranges

/-- What a schedule is that `streamToDevice` accepts. -/
theorem Program.streamSchedule_eq_ok {program : Program} {boundary : Nat} {wire : BoundPlan}
    {schedule : ChunkSchedule}
    (h : program.streamSchedule boundary = .ok (some (wire, schedule))) :
    program.wire boundary = .ok wire ∧
      (planChunks wire 1 (streamTarget (toSize wire.totalBytes)) : Outcome ExecutionError _) =
        .ok schedule ∧
      schedule.Partitionable wire.totalBytes ∧ schedule.outerLo = 0 ∧
      ∀ chunk ∈ schedule.chunks,
        chunk.paddedBegin = chunk.validBegin ∧ chunk.paddedEnd = chunk.validEnd := by
  simp only [Program.streamSchedule, bind_ok_iff] at h
  obtain ⟨wire', hwire, schedule', hplan, h⟩ := h
  split at h
  · cases h
  · rename_i hgood
    cases h
    simp only [not_or, not_not, Bool.not_eq_true] at hgood
    obtain ⟨hserial, hlo, -, hlast, hpads⟩ := hgood
    refine ⟨hwire, hplan, ⟨hserial, hlast⟩, hlo, fun chunk hchunk => ?_⟩
    by_contra hne
    exact hpads ⟨chunk, hchunk, by rwa [ne_eq, ne_eq, ← not_and_or]⟩

namespace Streaming

/-! ### Rows and cells -/

/-- What one run over all rows leaves of a memory; nothing where its checks fail. -/
def StreamCall.reference (c : StreamCall) (memory : Memory Nat) : Memory Nat :=
  match prologue c.program 0 c.boundary none c.source with
  | .ok call => run (call.moves.map call.write)
      (run (prefill call.state.widthTo call.window call.fill) memory)
  | _ => memory

/-- What the rows of a call are, each of `rowCells` cells. -/
structure StreamCall.Rowed (c : StreamCall) (rowCells : Int) : Prop where
  pos : 0 < rowCells
  rows : c.schedule.streamRows * rowCells = c.program.resultElements
  chunks : ∀ chunk ∈ c.schedule.chunks, 0 ≤ chunk.validBegin ∧
    chunk.validBegin < chunk.validEnd ∧ chunk.validEnd ≤ c.schedule.streamRows
  apart : ∀ (j k : Nat) (chunk other : Chunk), c.schedule.chunks[j]? = some chunk →
    c.schedule.chunks[k]? = some other → j < k → chunk.validEnd ≤ other.validBegin
  covered : ∀ row, 0 ≤ row → row < c.schedule.streamRows →
    ∃ (k : Nat) (chunk : Chunk), c.schedule.chunks[k]? = some chunk ∧ chunk.validBegin ≤ row ∧
    row < chunk.validEnd
  holds : ∀ (k : Nat) (chunk : Chunk) (cell : Int), c.schedule.chunks[k]? = some chunk →
    (c.holds k cell = true ↔
      chunk.validBegin * rowCells ≤ cell ∧ cell < chunk.validEnd * rowCells)
  window : ∀ chunk ∈ c.schedule.chunks, ∀ range, (chunk.share range).1 < (chunk.share range).2 →
    (c.schedule.shareWindow chunk range).byteOffset / c.wire.elementSize =
        (chunk.share range).1 * rowCells ∧
      ((c.schedule.shareWindow chunk range).bytes : Int) / c.wire.elementSize =
        ((chunk.share range).2 - (chunk.share range).1) * rowCells
  written : ∀ chunk ∈ c.schedule.chunks, ∀ range, (chunk.share range).1 < (chunk.share range).2 →
    ∀ aligned writes, chunkWrites c.program 0 c.boundary (c.schedule.shareWindow chunk range)
        aligned c.source = .ok writes →
      (∀ write ∈ writes, 0 ≤ write.cell ∧
        write.cell < ((chunk.share range).2 - (chunk.share range).1) * rowCells) ∧
      ∀ memory cell, 0 ≤ cell →
        cell < ((chunk.share range).2 - (chunk.share range).1) * rowCells →
        run writes (sliced memory ((chunk.share range).1 * rowCells)) cell =
          c.reference memory (cell + (chunk.share range).1 * rowCells)
  single : ∀ aligned memory written,
    Executes c.program 0 c.boundary none aligned c.source memory (.ok written) →
      written = c.reference memory
  whole : ∀ aligned memory result,
    Executes c.program 0 c.boundary none aligned c.source memory result →
    (∀ chunk ∈ c.schedule.chunks, ∀ range ∈ c.ranges,
      (chunk.share range).1 < (chunk.share range).2 →
      ∃ aligned writes, chunkWrites c.program 0 c.boundary (c.schedule.shareWindow chunk range)
        aligned c.source = .ok writes) →
    ∃ written, result = .ok written

section Geometry

variable {c : StreamCall} {plan : TypedRelocationPlan} {axis : WalkAxis} {axes : List WalkAxis}

/-- The chunks have the rows of the axis, one after the other. -/
theorem StreamCall.partition (c : StreamCall)
    (hrowed : c.schedule.Rowed c.wire axis axes) (hhi : 0 ≤ axis.hi) :
    (axis.padded = axis.extent ∧ c.schedule.streamRows = axis.extent ∧ axis.lo = 0) ∧
      Partition 0 (c.schedule.chunks.map fun chunk => (chunk.validBegin, chunk.validEnd))
        axis.extent := by
  obtain ⟨-, -, ⟨-, last, hlast, -⟩, hlo, hpads⟩ := Program.streamSchedule_eq_ok c.accepted
  have hpos := hrowed.rowPos
  have hmem := List.mem_of_getLast? hlast
  have hcut := hrowed.chunks last hmem
  have hend : last.paddedEnd = axis.padded := by
    have hsum := hrowed.tiles.last hlast
    rw [hcut.offset, hcut.bytes, ← add_mul] at hsum
    have := mul_right_cancel₀ hpos.ne' hsum
    omega
  have hzero : axis.lo = 0 := hrowed.outerLo ▸ hlo
  have hvalid := hcut.range.2.2
  have hlastEnd := (hpads last hmem).2
  have hsum : axis.padded = axis.extent + axis.lo + axis.hi := rfl
  have hextent : axis.padded = axis.extent := by omega
  have hrows : c.schedule.streamRows = axis.extent := by
    rw [ChunkSchedule.streamRows, hlast]
    simp only [Option.map_some, Option.getD_some]
    omega
  refine ⟨⟨hextent, hrows, hzero⟩, ?_⟩
  have hparts : Partition 0 (c.schedule.chunks.flatMap fun chunk =>
      [(chunk.paddedBegin, chunk.paddedEnd)]) axis.padded :=
    hrowed.partition fun chunk hchunk => partition_single ?_
  · have hsame : c.schedule.chunks.map (fun chunk => (chunk.paddedBegin, chunk.paddedEnd)) =
        c.schedule.chunks.map fun chunk => (chunk.validBegin, chunk.validEnd) :=
      List.map_congr_left fun chunk hchunk => by rw [(hpads chunk hchunk).1, (hpads chunk hchunk).2]
    rwa [← List.map_eq_flatMap, hextent, hsame] at hparts
  · have hbytes := (hrowed.chunks chunk hchunk).bytes
    have hpositive := hrowed.tiles.pos hchunk
    have hgap : 0 < (chunk.paddedEnd - chunk.paddedBegin) * c.schedule.rowBytes := by omega
    have := (mul_pos_iff_of_pos_right hpos).mp hgap
    omega

theorem StreamCall.reference_eq {call : HostCall}
    (hcall : prologue c.program 0 c.boundary none c.source = .ok call) (memory : Memory Nat) :
    c.reference memory = run (call.moves.map call.write)
      (run (prefill call.state.widthTo call.window call.fill) memory) := by
  rw [StreamCall.reference, hcall]

/-- The window of a share is that of its rows. -/
theorem StreamCall.shareWindow_eq (c : StreamCall) {chunk : Chunk} {range : Int × Int}
    {extent : Int} (hbegin : 0 ≤ chunk.validBegin) (hend : chunk.validEnd ≤ extent)
    (hshare : (chunk.share range).1 < (chunk.share range).2) :
    c.schedule.shareWindow chunk range =
      c.schedule.window extent (chunk.share range).1 (chunk.share range).2 := by
  obtain ⟨-, -, -, hlo, -⟩ := Program.streamSchedule_eq_ok c.accepted
  have hfirst : chunk.validBegin ≤ (chunk.share range).1 := le_max_right _ _
  have hlast : (chunk.share range).2 ≤ chunk.validEnd := min_le_right _ _
  unfold ChunkSchedule.shareWindow ChunkSchedule.window
  simp only [hlo, Chunk.mk.injEq, and_true, true_and]
  omega

/-- The rows of the outermost axis, as the schedule has them. -/
structure StreamCall.Grid (c : StreamCall) (plan : TypedRelocationPlan) (axis : WalkAxis)
    (axes : List WalkAxis) : Prop where
  sound : c.program.Sound plan
  boundary_le : c.boundary ≤ c.program.stages.length
  axes_eq : c.program.plan.layout.walkAxes = axis :: axes
  laid : c.wire.Laid
  rowed : c.schedule.Rowed c.wire axis axes
  fits : FitsI64 (axis.padded * c.schedule.rowBytes)
  padded_eq : axis.padded = axis.extent
  lo_eq : axis.lo = 0
  rows_eq : c.schedule.streamRows = axis.extent
  cells : axis.padded * axis.dstStride = c.program.resultElements
  parts : Partition 0 (c.schedule.chunks.map fun chunk => (chunk.validBegin, chunk.validEnd))
    axis.extent

theorem StreamCall.exists_grid (c : StreamCall) (hsound : c.program.Sound plan) :
    ∃ axis axes, c.Grid plan axis axes := by
  obtain ⟨hwire, hplan, hpartitionable, -, -⟩ := Program.streamSchedule_eq_ok c.accepted
  obtain ⟨axis, axes, haxes⟩ := hsound.walkAxes_eq
  have hto : c.boundary ≤ c.program.stages.length := by
    have hwire := hwire
    simp only [Program.wire, Program.widthAt, Program.typeAt, bind_ok_iff] at hwire
    obtain ⟨_, ⟨_, htype, -⟩, -⟩ := hwire
    split at htype
    · omega
    · obtain ⟨_, hfetch, -⟩ := bind_ok_iff.mp htype
      have := (List.getElem?_eq_some_iff.mp (fetch_eq_ok.mp hfetch)).1
      omega
  obtain ⟨hlaid, hwalk, hsize, htotalElements⟩ := hsound.laid_wire hto c.settled hwire
  have hrowed := hlaid.planChunks_rows (hwalk.trans haxes) hplan hpartitionable.1
  have htotal := hrowed.total hpartitionable
  have hhi := (hsound.laid.axes axis (by rw [haxes]; simp)).2.1.2
  obtain ⟨⟨hpadded, hrows, hlo⟩, hparts⟩ := c.partition hrowed hhi
  refine ⟨axis, axes, hsound, hto, haxes, hlaid, hrowed, htotal ▸ hlaid.fits, hpadded, hlo, hrows,
    ?_, hparts⟩
  have hpos : (c.wire.elementSize : Int) ≠ 0 := by exact_mod_cast hlaid.size.ne'
  refine mul_right_cancel₀ hpos ?_
  rw [← htotalElements, ← htotal, hrowed.rowBytes, mul_assoc]

namespace StreamCall.Grid

variable (g : c.Grid plan axis axes) {chunk : Chunk} {range : Int × Int}
include g

theorem stride_pos : 0 < axis.dstStride := by
  have hpos := g.rowed.rowPos
  rw [g.rowed.rowBytes] at hpos
  have hsize : (0 : Int) < c.wire.elementSize := by exact_mod_cast g.laid.size
  exact (mul_pos_iff_of_pos_right hsize).mp hpos

theorem chunk_rows (hchunk : chunk ∈ c.schedule.chunks) :
    0 ≤ chunk.validBegin ∧ chunk.validBegin < chunk.validEnd ∧ chunk.validEnd ≤ axis.extent :=
  g.parts.bounds (List.mem_map.mpr ⟨chunk, hchunk, rfl⟩)

theorem share_rows (range : Int × Int) (hchunk : chunk ∈ c.schedule.chunks) :
    0 ≤ (chunk.share range).1 ∧ (chunk.share range).2 ≤ axis.padded := by
  obtain ⟨hbegin, -, hend⟩ := g.chunk_rows hchunk
  rw [g.padded_eq]
  exact ⟨hbegin.trans (le_max_right _ _), (min_le_right _ _).trans hend⟩

/-- The cells of a window. -/
theorem share_cells (hchunk : chunk ∈ c.schedule.chunks)
    (hshare : (chunk.share range).1 < (chunk.share range).2) :
    (c.schedule.shareWindow chunk range).byteOffset / c.wire.elementSize =
        (axis.rowWindow (chunk.share range).1 (chunk.share range).2).origin ∧
      ((c.schedule.shareWindow chunk range).bytes : Int) / c.wire.elementSize =
        (axis.rowWindow (chunk.share range).1 (chunk.share range).2).elements := by
  obtain ⟨hbegin, -, hend⟩ := g.chunk_rows hchunk
  obtain ⟨hfirst, hlast⟩ := g.share_rows range hchunk
  rw [c.shareWindow_eq hbegin hend hshare]
  exact g.rowed.window_cells g.laid g.fits ⟨hfirst, hshare, hlast⟩

/-- The cells of a chunk. -/
theorem chunk_cells (hchunk : chunk ∈ c.schedule.chunks) :
    chunk.byteOffset / c.wire.elementSize = chunk.validBegin * axis.dstStride ∧
      (chunk.bytes : Int) / c.wire.elementSize =
        (chunk.validEnd - chunk.validBegin) * axis.dstStride := by
  obtain ⟨-, -, -, -, hpads⟩ := Program.streamSchedule_eq_ok c.accepted
  have hcut := g.rowed.chunks chunk hchunk
  have hsize : (c.wire.elementSize : Int) ≠ 0 := by exact_mod_cast g.laid.size.ne'
  rw [hcut.offset, hcut.bytes, (hpads chunk hchunk).1, (hpads chunk hchunk).2, g.rowed.rowBytes,
    ← mul_assoc, ← mul_assoc, Int.mul_ediv_cancel _ hsize, Int.mul_ediv_cancel _ hsize]
  exact ⟨rfl, rfl⟩

/-- A window passes its checks with its rows. -/
theorem resolve_share (hchunk : chunk ∈ c.schedule.chunks)
    (hshare : (chunk.share range).1 < (chunk.share range).2) {width : Nat}
    (hwidth : c.program.widthAt c.boundary = .ok width) :
    resolveWindow c.program c.boundary width (some (c.schedule.shareWindow chunk range)) =
      .ok (axis.rowWindow (chunk.share range).1 (chunk.share range).2) := by
  obtain ⟨hwire, hplan, hpartitionable, -, -⟩ := Program.streamSchedule_eq_ok c.accepted
  obtain ⟨hbegin, -, hend⟩ := g.chunk_rows hchunk
  obtain ⟨hfirst, hlast⟩ := g.share_rows range hchunk
  rw [c.shareWindow_eq hbegin hend hshare]
  exact resolveWindow_window g.sound g.boundary_le c.settled g.axes_eq hwire hplan hpartitionable
    hwidth ⟨hfirst, hshare, hlast⟩

/-- A window passes the checks of a call exactly when the run over all rows does. -/
theorem prologue_share (hchunk : chunk ∈ c.schedule.chunks)
    (hshare : (chunk.share range).1 < (chunk.share range).2) (call' : HostCall) :
    prologue c.program 0 c.boundary (some (c.schedule.shareWindow chunk range)) c.source =
        .ok call' ↔
      ∃ call, prologue c.program 0 c.boundary none c.source = .ok call ∧
        call' = call.windowed (axis.rowWindow (chunk.share range).1 (chunk.share range).2) :=
  prologue_window (g.sound.fetch_extent g.axes_eq) fun _ hwidth _ _ =>
    g.resolve_share hchunk hshare hwidth

/-- What is written of a window: its cells, as the run over all rows leaves them. -/
theorem share_written (hchunk : chunk ∈ c.schedule.chunks)
    (hshare : (chunk.share range).1 < (chunk.share range).2) {aligned : Bool}
    {writes : List CellWrite}
    (hwrites : chunkWrites c.program 0 c.boundary (c.schedule.shareWindow chunk range) aligned
      c.source = .ok writes) :
    (∀ write ∈ writes, 0 ≤ write.cell ∧
        write.cell < ((chunk.share range).2 - (chunk.share range).1) * axis.dstStride) ∧
      (∃ call, prologue c.program 0 c.boundary none c.source = .ok call ∧
        ∀ move ∈ rangedVisits call.layout.walkAxes
          (axis.rowWindow (chunk.share range).1 (chunk.share range).2).first
          (axis.rowWindow (chunk.share range).1 (chunk.share range).2).last 0 0,
          ∃ write, call.step move = .ok write) ∧
      ∀ memory cell, 0 ≤ cell →
        cell < ((chunk.share range).2 - (chunk.share range).1) * axis.dstStride →
        run writes (sliced memory ((chunk.share range).1 * axis.dstStride)) cell =
          c.reference memory (cell + (chunk.share range).1 * axis.dstStride) := by
  have hruns := executes_of_chunkWrites hwrites
  obtain ⟨call', hcall'⟩ := (hruns fun _ => 0).ready
  obtain ⟨call, hcall, -⟩ := (g.prologue_share hchunk hshare call').mp hcall'
  have hone := fun memory => executes_window g.sound g.axes_eq g.rowed.disjoint hcall
    (g.prologue_share hchunk hshare) (hruns
      (sliced memory (axis.rowWindow (chunk.share range).1 (chunk.share range).2).origin))
  refine ⟨chunkWrites_inside hwrites (g.sound.widthAt_eq g.boundary_le)
    (g.resolve_share hchunk hshare (g.sound.widthAt_eq g.boundary_le)),
    ⟨call, hcall, (hone fun _ => 0).1.mp ⟨_, rfl⟩⟩, fun memory cell hlow hhigh => ?_⟩
  rw [StreamCall.reference_eq hcall]
  exact (hone memory).2 _ rfl cell hlow hhigh

/-- Kernels that cannot fail write every window. -/
theorem exists_writes (hchunk : chunk ∈ c.schedule.chunks)
    (hshare : (chunk.share range).1 < (chunk.share range).2) {call : HostCall}
    (hcall : prologue c.program 0 c.boundary none c.source = .ok call)
    (hkernel : call.kernel ≠ .generic) (aligned : Bool) :
    ∃ writes, chunkWrites c.program 0 c.boundary (c.schedule.shareWindow chunk range) aligned
      c.source = .ok writes := by
  have hexecutes := executes_chunkWrites c.program 0 c.boundary (c.schedule.shareWindow chunk range)
    aligned c.source
    (sliced (fun _ => 0) (axis.rowWindow (chunk.share range).1 (chunk.share range).2).origin)
  have hstep : ∀ move, ∃ write, call.step move = .ok write := fun move =>
    ⟨call.state.move move, by rw [HostCall.step, if_neg hkernel]⟩
  obtain ⟨_, hpart⟩ := (executes_window g.sound g.axes_eq g.rowed.disjoint hcall
    (g.prologue_share hchunk hshare) hexecutes).1.mpr fun move _ => hstep move
  obtain ⟨writes, hwrites, -⟩ := bind_ok_iff.mp hpart
  exact ⟨writes, hwrites⟩

/-- The run over all rows. -/
theorem executes_iff {aligned : Bool} {memory : Memory Nat}
    {result : Outcome ExecutionError (Memory Nat)}
    (hexecutes : Executes c.program 0 c.boundary none aligned c.source memory result)
    (written : Memory Nat) :
    result = .ok written ↔ ∃ call, prologue c.program 0 c.boundary none c.source = .ok call ∧
      call.Good ∧ written = c.reference memory := by
  have hall := g.sound.laid.axes
  rw [g.axes_eq, List.forall_mem_cons] at hall
  rw [g.sound.executes_eq_ok (fun call hcall => ?_) hexecutes]
  · refine exists_congr fun call => and_congr_right fun hcall => ?_
    rw [StreamCall.reference_eq hcall]
  · have h := prologue_eq_ok hcall
    have hlayout : call.layout.walkAxes = axis :: axes := by rw [h.layout_eq, g.axes_eq]
    exact h.keepsOrder_of_disjoint g.sound
      (HostCall.rowsDisjoint_of_reach hlayout hall.2 g.rowed.disjoint)

/-- When every share of a chunk can be written, so can all rows. -/
theorem executes_all {aligned : Bool} {memory : Memory Nat}
    {result : Outcome ExecutionError (Memory Nat)}
    (hexecutes : Executes c.program 0 c.boundary none aligned c.source memory result)
    (hwritten : ∀ chunk ∈ c.schedule.chunks, ∀ range ∈ c.ranges,
      (chunk.share range).1 < (chunk.share range).2 →
      ∃ aligned writes, chunkWrites c.program 0 c.boundary (c.schedule.shareWindow chunk range)
        aligned c.source = .ok writes) : ∃ written, result = .ok written := by
  have hextent := (g.sound.laid.axes axis (by rw [g.axes_eq]; simp)).1
  -- the chunk and the range of a row
  have hrow : ∀ i, 0 ≤ i → i < axis.extent → ∃ chunk ∈ c.schedule.chunks, ∃ range ∈ c.ranges,
      (chunk.share range).1 ≤ i ∧ i < (chunk.share range).2 := by
    intro i hlow hhigh
    obtain ⟨_, hmem, hin⟩ := g.parts.exists_mem ⟨hlow, hhigh⟩
    obtain ⟨chunk, hchunk, rfl⟩ := List.mem_map.mp hmem
    obtain ⟨range, hrange, hin'⟩ := c.divided.exists_mem (i := i)
      ⟨hlow, by rw [g.rows_eq]; exact hhigh⟩
    refine ⟨chunk, hchunk, range, hrange, ?_⟩
    simp only [Chunk.share] at hin ⊢
    omega
  obtain ⟨chunk, hchunk, range, hrange, hin⟩ := hrow 0 (le_refl 0) (by omega)
  obtain ⟨_, _, hwrites⟩ := hwritten chunk hchunk range hrange (by omega)
  obtain ⟨-, ⟨call, hcall, -⟩, -⟩ := g.share_written hchunk (by omega) hwrites
  refine ⟨_, (g.executes_iff hexecutes _).mpr ⟨call, hcall, ?_, rfl⟩⟩
  have h := prologue_eq_ok hcall
  have hparts := g.parts
  rw [← g.padded_eq] at hparts
  rw [h.good_iff_parts g.sound g.axes_eq g.rowed.disjoint g.cells hparts]
  intro part hpart move hmove
  obtain ⟨chunk', hchunk', rfl⟩ := List.mem_map.mp hpart
  rw [h.layout_eq, g.axes_eq, mem_rangedVisits] at hmove
  obtain ⟨i, hi, hvisit⟩ := hmove
  have hrows := g.chunk_rows hchunk'
  have hlo := g.lo_eq
  simp only [WalkAxis.rowWindow, hlo] at hi
  obtain ⟨chunk, hchunk, range, hrange, hin⟩ := hrow i (by omega) (by omega)
  obtain ⟨_, _, hwrites⟩ := hwritten chunk hchunk range hrange (by omega)
  obtain ⟨-, ⟨call', hcall', hgood⟩, -⟩ := g.share_written hchunk (by omega) hwrites
  rw [hcall, Outcome.ok.injEq] at hcall'
  subst hcall'
  refine hgood move ?_
  obtain ⟨hfirst, hlast⟩ := g.share_rows range hchunk
  have hpadded := g.padded_eq
  rw [h.layout_eq, g.axes_eq, mem_rangedVisits]
  refine ⟨i, ?_, hvisit⟩
  simp only [WalkAxis.rowWindow, hlo]
  omega

end StreamCall.Grid

/-- Every call has its rows. -/
theorem StreamCall.exists_rowed (c : StreamCall) (hsound : c.program.Sound plan) :
    ∃ rowCells, c.Rowed rowCells := by
  obtain ⟨axis, axes, g⟩ := c.exists_grid hsound
  have hrows : c.schedule.streamRows = axis.padded := by rw [g.rows_eq, g.padded_eq]
  refine ⟨axis.dstStride, g.stride_pos, by rw [hrows]; exact g.cells, fun chunk hchunk => ?_,
    ?_, ?_,
    ?_, fun chunk hchunk range hshare => g.share_cells hchunk hshare, ?_, ?_, ?_⟩
  · rw [g.rows_eq]
    exact g.chunk_rows hchunk
  · intro j k chunk other hj hk hlt
    have hpair := List.pairwise_iff_getElem.mp g.parts.pairwise
    obtain ⟨hjlt, rfl⟩ := List.getElem?_eq_some_iff.mp hj
    obtain ⟨hklt, rfl⟩ := List.getElem?_eq_some_iff.mp hk
    have := hpair j k (by simpa using hjlt) (by simpa using hklt) hlt
    simpa using this
  · intro row hlow hhigh
    rw [g.rows_eq] at hhigh
    obtain ⟨_, hmem, hin⟩ := g.parts.exists_mem ⟨hlow, hhigh⟩
    obtain ⟨chunk, hchunk, rfl⟩ := List.mem_map.mp hmem
    obtain ⟨k, hk⟩ := List.mem_iff_getElem?.mp hchunk
    exact ⟨k, chunk, hk, hin⟩
  · intro k chunk cell hk
    rw [StreamCall.holds, hk]
    simp only [decide_eq_true_eq]
    obtain ⟨hoffset, hbytes⟩ := g.chunk_cells (List.mem_of_getElem? hk)
    rw [hoffset, hbytes, ← add_mul, add_sub_cancel]
  · intro chunk hchunk range hshare aligned writes hwrites
    obtain ⟨hcells, -, hreference⟩ := g.share_written hchunk hshare hwrites
    exact ⟨hcells, hreference⟩
  · intro aligned memory written hexecutes
    obtain ⟨_, -, -, hwritten⟩ := (g.executes_iff hexecutes written).mp rfl
    exact hwritten
  · exact fun aligned memory result hexecutes hall => g.executes_all hexecutes hall

end Geometry

end Streaming

end SymReloc
