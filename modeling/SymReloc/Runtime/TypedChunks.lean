import SymReloc.Runtime.FastKernels

/-!
# Typed chunks

Where the rows of a result are disjoint and have all of its bytes, any division of the
rows into windows gives what one run over all rows gives: every window leaves in its
slice what the whole run leaves there (`executes_windows`).  Other layouts are not
divided: their chunks are refused.
-/

namespace SymReloc

open Outcome Writes

/-! ### Windows of a schedule -/

/-- A window of padded rows of a schedule. -/
def ChunkSchedule.window (schedule : ChunkSchedule) (validOuter first last : Int) : Chunk :=
  let validBegin := min (max (first - schedule.outerLo) 0) validOuter
  { paddedBegin := first
    paddedEnd := last
    validBegin
    validEnd := min (max (last - schedule.outerLo) validBegin) validOuter
    byteOffset := first * schedule.rowBytes
    bytes := toSize ((last - first) * schedule.rowBytes) }

/-- The windows of the chunks, each split into runs of rows. -/
def ChunkSchedule.windows (schedule : ChunkSchedule) (validOuter : Int)
    (splits : Chunk → List (Int × Int)) : List Chunk :=
  schedule.chunks.flatMap fun chunk => (splits chunk).map fun part =>
    schedule.window validOuter part.1 part.2

/-- `partitionable`: disjoint rows that have all bytes. -/
def ChunkSchedule.Partitionable (schedule : ChunkSchedule) (bytes : Int) : Prop :=
  schedule.serialized = false ∧
    ∃ last ∈ schedule.chunks.getLast?, last.byteOffset + last.bytes = bytes

theorem Tiles.last {start finish : Int} {chunks : List Chunk} (h : Tiles start chunks finish)
    {chunk : Chunk} (hlast : chunk ∈ chunks.getLast?) :
    chunk.byteOffset + chunk.bytes = finish := by
  induction chunks generalizing start with
  | nil => cases hlast
  | cons first rest ih =>
      obtain ⟨hstart, -, hrest⟩ := h
      cases rest with
      | nil =>
          obtain rfl : first = chunk := by simpa using hlast
          rw [hstart]
          exact hrest
      | cons second rest =>
          rw [List.getLast?_cons_cons] at hlast
          exact ih hrest hlast

theorem Partition.append {start middle finish : Int} {parts parts' : List (Int × Int)}
    (h : Partition start parts middle) (h' : Partition middle parts' finish) :
    Partition start (parts ++ parts') finish := by
  induction parts generalizing start with
  | nil =>
      obtain rfl : start = middle := h
      exact h'
  | cons part rest ih =>
      obtain ⟨hstart, hlt, hrest⟩ := h
      exact ⟨hstart, hlt, ih hrest⟩

namespace ChunkSchedule.Rowed

variable {bound : BoundPlan} {axis : WalkAxis} {axes : List WalkAxis} {schedule : ChunkSchedule}

theorem total (h : schedule.Rowed bound axis axes) {bytes : Int}
    (hpartitionable : schedule.Partitionable bytes) : axis.padded * schedule.rowBytes = bytes := by
  obtain ⟨-, last, hlast, hbytes⟩ := hpartitionable
  rw [← hbytes]
  exact (h.tiles.last hlast).symm

/-- The rows of split chunks follow each other. -/
theorem partition (h : schedule.Rowed bound axis axes) {splits : Chunk → List (Int × Int)}
    (hsplits : ∀ chunk ∈ schedule.chunks, Partition chunk.paddedBegin (splits chunk)
      chunk.paddedEnd) : Partition 0 (schedule.chunks.flatMap splits) axis.padded := by
  have hpos := h.rowPos
  have hcuts := h.chunks
  have htiles := h.tiles
  have hzero : (0 : Int) = 0 * schedule.rowBytes := (zero_mul _).symm
  rw [hzero] at htiles
  generalize schedule.chunks = chunks at hcuts htiles hsplits
  -- the padded row that the chunks start at
  generalize (0 : Int) = row at htiles
  induction chunks generalizing row with
  | nil => exact mul_right_cancel₀ hpos.ne' htiles
  | cons chunk rest ih =>
      rw [List.forall_mem_cons] at hcuts hsplits
      obtain ⟨hoffset, -, hrest⟩ := htiles
      have hbegin : chunk.paddedBegin = row :=
        mul_right_cancel₀ hpos.ne' (hcuts.1.offset.symm.trans hoffset)
      have hnext : row * schedule.rowBytes + chunk.bytes = chunk.paddedEnd * schedule.rowBytes := by
        rw [hcuts.1.bytes, ← hbegin]
        ring
      rw [hnext] at hrest
      rw [List.flatMap_cons, ← hbegin]
      exact hsplits.1.append (ih hcuts.2 hsplits.2 _ hrest)

end ChunkSchedule.Rowed

/-! ### A schedule of one chunk -/

/-- A target of all bytes gives one chunk. -/
theorem planChunks_full {ε : Type} {bound : BoundPlan} {axis : WalkAxis} {axes : List WalkAxis}
    {schedule : ChunkSchedule} (h : bound.Laid) (haxes : bound.walkAxes = axis :: axes)
    {nBuffers : Int} {chunkSizeOverride : Nat}
    (hrun : (planChunks bound nBuffers chunkSizeOverride : Outcome ε _) = .ok schedule)
    (hpartitionable : schedule.Partitionable bound.totalBytes) :
    ∃ whole full, (planChunks bound 1 (toSize bound.totalBytes) : Outcome ε _) = .ok whole ∧
      whole.serialized = false ∧ whole.chunks[0]? = some full ∧
      full.bytes = toSize bound.totalBytes ∧ full.paddedEnd = axis.padded ∧
      whole.outerLo = schedule.outerLo ∧ whole.rowBytes = schedule.rowBytes := by
  have hrowed := h.planChunks_rows haxes hrun hpartitionable.1
  have htotal := hrowed.total hpartitionable
  obtain ⟨hextent, ⟨hlo, hhi⟩, hstride⟩ := h.axes axis (by rw [haxes]; simp)
  have hsum : axis.extent + axis.lo + axis.hi = axis.padded := rfl
  have hpositive : 0 < axis.padded := by omega
  have hfits := h.fits
  have hrowPos := hrowed.rowPos
  rw [hrowed.rowBytes] at htotal hrowPos
  have hbytesPos : 0 < bound.totalBytes := by
    rw [← htotal]
    exact mul_pos hpositive hrowPos
  have hself : axis.padded ≤ axis.padded * (axis.dstStride * bound.elementSize) :=
    le_mul_of_one_le_right hpositive.le hrowPos
  have hrow' : axis.dstStride * bound.elementSize ≤
      axis.padded * (axis.dstStride * bound.elementSize) :=
    le_mul_of_one_le_left hrowPos.le hpositive
  have hsmall : ∀ x : Int, -axis.padded ≤ x → x ≤ bound.totalBytes → FitsI64 x := by
    intro x hx hle
    unfold FitsI64 at hfits ⊢
    omega
  have hsize : ∀ x : Int, 0 ≤ x → x ≤ bound.totalBytes → (toSize x : Int) = x :=
    fun x hx hle => toSize_of_nonneg hx (hsmall x (by omega) hle)
  have htarget : toSize bound.totalBytes ≠ 0 := by
    have := hsize bound.totalBytes hbytesPos.le (le_refl _)
    omega
  have hserial := hpartitionable.1
  simp only [planChunks, bind_ok_iff, h.strides, h.outer axis axes haxes, h.extents, haxes,
    List.map_cons, fetch_eq_ok, List.getElem?_cons_zero, Option.some.injEq, mul64_eq_ok,
    add64_eq_ok] at hrun ⊢
  obtain ⟨padded, hpadded, _, rfl, _, ⟨hrow, rfl⟩, _, rfl, _, ⟨houter, rfl⟩, _, ⟨houter', rfl⟩,
    span, hspan, _, ⟨hnext, rfl⟩, hschedule⟩ := hrun
  split at hschedule
  · cases hschedule
    cases hserial
  · rename_i hrows
    rw [hsum] at hrows
    have hrpc : rowsOfTarget (toSize bound.totalBytes) (axis.dstStride * bound.elementSize)
        axis.padded = axis.padded := by
      rw [rowsOfTarget, if_pos hrowPos, hsize _ hbytesPos.le (le_refl _),
        hsize _ hrowPos.le (by omega),
        hsize _ hpositive.le (by omega), ← htotal, Int.mul_ediv_cancel _ hrowPos.ne']
      omega
    have hlater : (cutChunks axis.lo axis.extent (axis.dstStride * bound.elementSize) axis.padded
        axis.padded (axis.padded.toNat - 1) axis.padded : Outcome ε _) = .ok [] := by
      cases axis.padded.toNat - 1 with
      | zero => rfl
      | succ n => rw [cutChunks, if_neg (lt_irrefl _)]
    have hfuel : axis.padded.toNat = axis.padded.toNat - 1 + 1 := by omega
    have hcut : (cutChunk axis.lo axis.extent (axis.dstStride * bound.elementSize) axis.padded
        axis.padded 0 : Outcome ε _) = .ok (schedule.window axis.extent 0 axis.padded) := by
      have hlast : 0 + min axis.padded (axis.padded - 0) = axis.padded := by omega
      rw [cutChunk, sub64, exact64_of_fits (hsmall _ (by omega) (by omega)), ok_bind, add64, hlast,
        exact64_of_fits (hsmall _ (by omega) (by omega)), ok_bind, sub64,
        exact64_of_fits (hsmall _ (by omega) (by omega)), ok_bind, sub64,
        exact64_of_fits (hsmall _ (by omega) (by omega)), ok_bind, mul64, zero_mul,
        exact64_of_fits (hsmall _ (by omega) (by omega)), ok_bind, sub64,
        sub_zero, exact64_of_fits (hsmall _ (by omega) (by omega)), ok_bind, mul64,
        exact64_of_fits (hsmall _ (by omega) (by omega)), ok_bind, pure_eq]
      simp only [ChunkSchedule.window, hrowed.outerLo, hrowed.rowBytes, zero_mul, sub_zero,
        Outcome.ok.injEq, Chunk.mk.injEq, true_and, and_true]
      omega
    have hchunks : (cutChunks axis.lo axis.extent (axis.dstStride * bound.elementSize) axis.padded
        axis.padded axis.padded.toNat 0 : Outcome ε _) =
          .ok [schedule.window axis.extent 0 axis.padded] := by
      rw [hfuel, cutChunks, if_pos hpositive, hcut, ok_bind]
      have hend : (schedule.window axis.extent 0 axis.padded).paddedEnd = axis.padded := rfl
      rw [hend, hlater, ok_bind, pure_eq]
    refine ⟨{ chunks := [schedule.window axis.extent 0 axis.padded]
              maxChunkBytes := toSize (axis.padded * (axis.dstStride * bound.elementSize))
              outerLo := axis.lo
              rowBytes := axis.dstStride * bound.elementSize
              serialized := false },
      schedule.window axis.extent 0 axis.padded, ⟨padded, hpadded, _, rfl, _, ⟨hrow, rfl⟩, _, rfl,
        _, ⟨houter, rfl⟩, _, ⟨houter', rfl⟩, span, hspan, _, ⟨hnext, rfl⟩, ?_⟩, rfl, rfl, ?_, rfl,
      hrowed.outerLo.symm, hrowed.rowBytes.symm⟩
    · have hmax : FitsI64 (axis.padded * (axis.dstStride * bound.elementSize)) := by
        rw [htotal]
        exact hfits
      rw [hsum, if_neg hrows, planRows, chunkTarget, if_pos htarget, ok_bind]
      dsimp only
      rw [hrpc, hchunks, ok_bind, mul64, exact64_of_fits hmax, ok_bind, pure_eq]
    · simp only [ChunkSchedule.window, sub_zero, hrowed.rowBytes, htotal]

/-! ### Checked windows -/

/-- The rows and cells of a window of padded rows. -/
def WalkAxis.rowWindow (axis : WalkAxis) (first last : Int) : RowWindow :=
  let validBegin := min (max (first - axis.lo) 0) axis.extent
  { first := validBegin
    last := min (max (last - axis.lo) validBegin) axis.extent
    origin := first * axis.dstStride
    elements := (last - first) * axis.dstStride }

section Window

variable {program : Program} {plan : TypedRelocationPlan} {fromStage toStage : Nat}
  {axis : WalkAxis} {axes : List WalkAxis} {wire : BoundPlan} {schedule : ChunkSchedule}
  {first last nBuffers : Int} {chunkSizeOverride width : Nat} {source : Memory Nat}

/-- The cells of a window of rows. -/
theorem ChunkSchedule.Rowed.window_cells (hlaid : wire.Laid) (h : schedule.Rowed wire axis axes)
    (hfits : FitsI64 (axis.padded * schedule.rowBytes))
    (hrows : 0 ≤ first ∧ first < last ∧ last ≤ axis.padded) :
    (schedule.window axis.extent first last).byteOffset / wire.elementSize =
        (axis.rowWindow first last).origin ∧
      ((schedule.window axis.extent first last).bytes : Int) / wire.elementSize =
        (axis.rowWindow first last).elements := by
  have hsize : (0 : Int) < wire.elementSize := by exact_mod_cast hlaid.size
  have hcells : ∀ rows : Int, rows * schedule.rowBytes / wire.elementSize =
      rows * axis.dstStride := by
    intro rows
    rw [h.rowBytes, ← mul_assoc, Int.mul_ediv_cancel _ hsize.ne']
  have hspan : FitsI64 ((last - first) * schedule.rowBytes) := by
    have hle : (last - first) * schedule.rowBytes ≤ axis.padded * schedule.rowBytes :=
      mul_le_mul_of_nonneg_right (by omega) h.rowPos.le
    have hnonneg : 0 ≤ (last - first) * schedule.rowBytes :=
      mul_nonneg (by omega) h.rowPos.le
    unfold FitsI64 at hfits ⊢
    omega
  have hvalue : ((schedule.window axis.extent first last).bytes : Int) =
      (last - first) * schedule.rowBytes :=
    toSize_of_nonneg (mul_nonneg (by omega) h.rowPos.le) hspan
  constructor
  · exact hcells first
  · rw [hvalue, hcells]
    rfl

/-- The windows of a partitionable schedule pass the checks. -/
theorem resolveWindow_window (hsound : program.Sound plan) (hto : toStage ≤ program.stages.length)
    (hsettled : program.padsSettledBy toStage = true)
    (haxes : program.plan.layout.walkAxes = axis :: axes)
    (hwire : program.wire toStage = .ok wire)
    (hplan : (planChunks wire nBuffers chunkSizeOverride : Outcome ExecutionError _) = .ok schedule)
    (hpartitionable : schedule.Partitionable wire.totalBytes)
    (hwidth : program.widthAt toStage = .ok width)
    (hrows : 0 ≤ first ∧ first < last ∧ last ≤ axis.padded) :
    resolveWindow program toStage width (some (schedule.window axis.extent first last)) =
      .ok (axis.rowWindow first last) := by
  obtain ⟨hlaid, hwalk, hes, htotalElements⟩ := hsound.laid_wire hto hsettled hwire
  have hrowed := hlaid.planChunks_rows (hwalk.trans haxes) hplan hpartitionable.1
  have htotal := hrowed.total hpartitionable
  obtain ⟨whole, full, hwhole, hserial, hfull, hbytes, hend, hlo, hrowBytes⟩ :=
    planChunks_full hlaid (hwalk.trans haxes) hplan hpartitionable
  rw [hsound.widthAt_eq hto, Outcome.ok.injEq, ← hes] at hwidth
  obtain ⟨horigin, hcount⟩ := hrowed.window_cells hlaid (htotal ▸ hlaid.fits) hrows
  rw [hwidth] at horigin hcount
  have hchecks : whole.serialized = false ∧ full.bytes = toSize wire.totalBytes ∧
      0 ≤ (schedule.window axis.extent first last).paddedBegin ∧
      (schedule.window axis.extent first last).paddedBegin <
        (schedule.window axis.extent first last).paddedEnd ∧
      (schedule.window axis.extent first last).paddedEnd ≤ full.paddedEnd ∧
      (schedule.window axis.extent first last).byteOffset =
        (schedule.window axis.extent first last).paddedBegin * whole.rowBytes ∧
      (schedule.window axis.extent first last).bytes =
        toSize (((schedule.window axis.extent first last).paddedEnd -
          (schedule.window axis.extent first last).paddedBegin) * whole.rowBytes) := by
    rw [hend, hrowBytes]
    exact ⟨hserial, hbytes, hrows.1, hrows.2.1, hrows.2.2, rfl, rfl⟩
  rw [resolveWindow, fetch_eq_ok.mpr (hsound.fetch_extent haxes), ok_bind, hwire, ok_bind, hwhole,
    ok_bind, fetch_eq_ok.mpr hfull, ok_bind, require, if_pos hchecks, ok_bind]
  dsimp only
  rw [hlo, require, if_pos ⟨rfl, rfl⟩, ok_bind, pure_eq, hcount, horigin]
  simp only [ChunkSchedule.window, hrowed.outerLo, WalkAxis.rowWindow]

/-- The call over a window of rows. -/
def HostCall.windowed (call : HostCall) (window : RowWindow) : HostCall :=
  { call with state := { call.state with origin := window.origin }, window := window }

/-- A window passes the checks of a call exactly when the whole does. -/
theorem prologue_window {chunk : Chunk} {window : RowWindow} {outer : Int}
    (houter : program.plan.layout.extents[0]? = some outer)
    (hresolve : ∀ width, program.widthAt toStage = .ok width →
      program.padsSettledBy toStage = true → toStage ≤ program.stages.length →
      resolveWindow program toStage width (some chunk) = .ok window) {call' : HostCall} :
    prologue program fromStage toStage (some chunk) source = .ok call' ↔
      ∃ call, prologue program fromStage toStage none source = .ok call ∧
        call' = call.windowed window := by
  have hnone : ∀ (width : Nat) (whole : RowWindow),
      resolveWindow program toStage width none = .ok whole ↔
        whole = ⟨0, outer, 0, program.resultElements⟩ := by
    intro width whole
    rw [resolveWindow, fetch_eq_ok.mpr houter, ok_bind, pure_eq, Outcome.ok.injEq]
    exact eq_comm
  simp only [prologue, bind_ok_iff, exists_unit, require_eq_ok, pure_eq, Outcome.ok.injEq, hnone]
  constructor
  · rintro ⟨hrange, hsettled, fill, hfill, widthTo, hwidthTo, window', hwindow, widthFrom,
      hwidthFrom, rfl⟩
    rw [hresolve widthTo hwidthTo hsettled hrange.2, Outcome.ok.injEq] at hwindow
    subst hwindow
    exact ⟨_, ⟨hrange, hsettled, fill, hfill, widthTo, hwidthTo, _, rfl, widthFrom, hwidthFrom,
      rfl⟩,
      rfl⟩
  · rintro ⟨call, ⟨hrange, hsettled, fill, hfill, widthTo, hwidthTo, _, rfl, widthFrom, hwidthFrom,
      rfl⟩, rfl⟩
    exact ⟨hrange, hsettled, fill, hfill, widthTo, hwidthTo, window,
      hresolve widthTo hwidthTo hsettled hrange.2, widthFrom, hwidthFrom, rfl⟩

/-! ### One window -/

/-- A loop whose results all lie in a part of its range. -/
theorem flatMap_intRange_within {γ : Type} {a b n : Int} {body : Int → List γ}
    (h : 0 ≤ a ∧ a ≤ b ∧ b ≤ n)
    (hout : ∀ i, (0 ≤ i ∧ i < n) → (i < a ∨ b ≤ i) → body i = []) :
    (intRange 0 n).flatMap body = (intRange a b).flatMap body := by
  have hbefore : (intRange 0 a).flatMap body = [] := by
    rw [List.flatMap_eq_nil_iff]
    intro i hi
    rw [mem_intRange] at hi
    exact hout i (by omega) (.inl hi.2)
  have hafter : (intRange b n).flatMap body = [] := by
    rw [List.flatMap_eq_nil_iff]
    intro i hi
    rw [mem_intRange] at hi
    exact hout i (by omega) (.inr hi.1)
  have hrest : intRange a n = intRange a b ++ intRange b n := intRange_append b h.2.1 h.2.2
  rw [intRange_append a h.1 (h.2.1.trans h.2.2), hrest, List.flatMap_append, List.flatMap_append,
    hbefore, hafter, List.nil_append, List.append_nil]

/-- The reach of the inner axes, as the cells of a row use it. -/
theorem reach_target (axes : List WalkAxis) :
    Strides.reach (axes.map WalkAxis.target) =
      (axes.map fun axis => (axis.extent - 1) * axis.dstStride).sum +
        (axes.map fun axis => (axis.lo + axis.hi) * axis.dstStride).sum := by
  induction axes with
  | nil => rfl
  | cons axis rest ih =>
      rw [List.map_cons, Strides.reach, ih]
      simp only [List.map_cons, List.sum_cons, WalkAxis.target, WalkAxis.padded]
      ring

theorem sum_mul_nonneg {axes : List WalkAxis} {size : WalkAxis → Int}
    (h : ∀ axis ∈ axes, 0 ≤ size axis ∧ 0 ≤ axis.dstStride) :
    0 ≤ (axes.map fun axis => size axis * axis.dstStride).sum := by
  refine List.sum_nonneg fun value hvalue => ?_
  obtain ⟨axis, haxis, rfl⟩ := List.mem_map.mp hvalue
  exact mul_nonneg (h axis haxis).1 (h axis haxis).2

/-- The cells of a row lie between it and the next. -/
theorem row_cells (haxes : ∀ other ∈ axes, 1 ≤ other.extent ∧ (0 ≤ other.lo ∧ 0 ≤ other.hi) ∧
      0 ≤ other.dstStride)
    (hdisjoint : Strides.reach (axes.map WalkAxis.target) + 1 ≤ axis.dstStride) {i src : Int}
    {move : Int × Int} (hmove : move ∈ visits axes src ((i + axis.lo) * axis.dstStride)) :
    (i + axis.lo) * axis.dstStride ≤ move.2 ∧ move.2 < (i + axis.lo + 1) * axis.dstStride := by
  have hspan := visits_span (fun other hother => (haxes other hother).2.2) hmove
  have hlow : 0 ≤ (axes.map fun other => other.lo * other.dstStride).sum :=
    sum_mul_nonneg fun other hother => ⟨(haxes other hother).2.1.1, (haxes other hother).2.2⟩
  have hhigh : 0 ≤ (axes.map fun other => other.hi * other.dstStride).sum :=
    sum_mul_nonneg fun other hother => ⟨(haxes other hother).2.1.2, (haxes other hother).2.2⟩
  have hsplit : (axes.map fun other => (other.lo + other.hi) * other.dstStride).sum =
      (axes.map fun other => other.lo * other.dstStride).sum +
        (axes.map fun other => other.hi * other.dstStride).sum := by
    simp only [add_mul, List.sum_map_add]
  rw [reach_target, hsplit] at hdisjoint
  have hnext :
      (i + axis.lo + 1) * axis.dstStride = (i + axis.lo) * axis.dstStride + axis.dstStride :=
    by ring
  omega

namespace HostCall

theorem step_windowed {call : HostCall} (horigin : call.state.origin = 0) (window : RowWindow)
    (move : Int × Int) : (call.windowed window).step move = (do
      let write ← call.step move
      pure (write.rebase window.origin)) := by
  have hstore : ∀ bits, ({ call.state with origin := window.origin } : WalkState).storeBits move.2
      bits = (call.state.storeBits move.2 bits).rebase window.origin := by
    intro bits
    simp only [WalkState.storeBits, Write.rebase, horigin, sub_zero]
  unfold step windowed
  by_cases hkernel : call.kernel = .generic
  · rw [if_pos hkernel, if_pos hkernel]
    unfold element
    change (do
      let bits ← applyRange call.state.program (coordsOf call.state.program.resultStrides move.2)
        call.state.range (call.state.loadBits move.1)
      pure (({ call.state with origin := window.origin } : WalkState).storeBits move.2 bits)) = _
    cases applyRange call.state.program (coordsOf call.state.program.resultStrides move.2)
        call.state.range (call.state.loadBits move.1) with
    | ok bits =>
        rw [ok_bind, ok_bind, hstore]
        rfl
    | error reason => rfl
    | fault kind => rfl
  · rw [if_neg hkernel, if_neg hkernel, ok_bind, pure_eq]
    exact congrArg Outcome.ok (hstore _)

theorem write_windowed {call : HostCall} (horigin : call.state.origin = 0) (window : RowWindow)
    (move : Int × Int) :
    (call.windowed window).write move = (call.write move).rebase window.origin := by
  unfold write
  rw [step_windowed horigin]
  cases call.step move with
  | ok write => rfl
  | error reason =>
      simp only [error_bind, Write.rebase, horigin, sub_zero]
      rfl
  | fault kind =>
      simp only [fault_bind, Write.rebase, horigin, sub_zero]
      rfl

namespace Checked

variable {call : HostCall}

theorem window_none (hsound : program.Sound plan)
    (h : call.Checked program fromStage toStage none source)
    (haxes : program.plan.layout.walkAxes = axis :: axes) :
    call.window = ⟨0, axis.extent, 0, program.resultElements⟩ ∧ call.state.origin = 0 := by
  have hwindow := resolveWindow_eq_ok hsound h.range.2 h.settled haxes (h.widths hsound).2 h.window
  exact ⟨hwindow, by rw [h.program_eq.2.2.2.2, hwindow]⟩

/-- The elements of a window have cells there; they are good when they have values. -/
theorem good_windowed (hsound : program.Sound plan)
    (h : call.Checked program fromStage toStage none source)
    (haxes : program.plan.layout.walkAxes = axis :: axes)
    (hdisjoint : Strides.reach (axes.map WalkAxis.target) + 1 ≤ axis.dstStride) :
    (call.windowed (axis.rowWindow first last)).Good ↔
      ∀ move ∈ rangedVisits call.layout.walkAxes (axis.rowWindow first last).first
        (axis.rowWindow first last).last 0 0, ∃ write, call.step move = .ok write := by
  have horigin := (h.window_none hsound haxes).2
  have hall := hsound.laid.axes
  rw [haxes, List.forall_mem_cons] at hall
  have hstep : ∀ move, (∃ write, (call.windowed (axis.rowWindow first last)).step move =
      .ok write) ↔
      ∃ write, call.step move = .ok write := by
    intro move
    rw [step_windowed horigin]
    simp only [bind_ok_iff, pure_eq, Outcome.ok.injEq]
    constructor
    · rintro ⟨_, write, hwrite, -⟩
      exact ⟨write, hwrite⟩
    · rintro ⟨write, hwrite⟩
      exact ⟨_, write, hwrite, rfl⟩
  have hinside : (call.windowed (axis.rowWindow first last)).Inside := by
    intro move hmove
    have hlayout : (call.windowed (axis.rowWindow first last)).layout.walkAxes = axis :: axes := by
      rw [← haxes, ← h.layout_eq]
      rfl
    rw [HostCall.moves, hlayout, mem_rangedVisits] at hmove
    obtain ⟨i, hi, hvisit⟩ := hmove
    rw [zero_add, zero_add] at hvisit
    have hcells := row_cells hall.2 hdisjoint hvisit
    simp only [HostCall.windowed, WalkAxis.rowWindow] at hi ⊢
    have hlow : first * axis.dstStride ≤ (i + axis.lo) * axis.dstStride :=
      mul_le_mul_of_nonneg_right (by omega) hall.1.2.2
    have hhigh : (i + axis.lo + 1) * axis.dstStride ≤ last * axis.dstStride :=
      mul_le_mul_of_nonneg_right (by omega) hall.1.2.2
    rw [sub_mul]
    omega
  unfold Good
  rw [and_iff_right hinside]
  exact forall₂_congr fun move _ => hstep move

/-- In its cells a window writes what the whole call writes. -/
theorem last_windowed (hsound : program.Sound plan)
    (h : call.Checked program fromStage toStage none source)
    (haxes : program.plan.layout.walkAxes = axis :: axes)
    (hdisjoint : Strides.reach (axes.map WalkAxis.target) + 1 ≤ axis.dstStride) {cell : Int}
    (hcell : 0 ≤ cell ∧ cell < (axis.rowWindow first last).elements) :
    Writes.last ((call.windowed (axis.rowWindow first last)).moves.map
        (call.windowed (axis.rowWindow first last)).write) cell =
      Writes.last (call.moves.map call.write) (cell + (axis.rowWindow first last).origin) := by
  obtain ⟨hwindow, horigin⟩ := h.window_none hsound haxes
  have hall := hsound.laid.axes
  rw [haxes, List.forall_mem_cons] at hall
  have hlayout : call.layout.walkAxes = axis :: axes := by rw [h.layout_eq, haxes]
  have hwrite : (call.windowed (axis.rowWindow first last)).write =
      fun move => (call.write move).rebase (axis.rowWindow first last).origin := by
    funext move
    exact write_windowed horigin _ move
  have hmap : (call.windowed (axis.rowWindow first last)).moves.map
      (fun move => (call.write move).rebase (axis.rowWindow first last).origin) =
      ((call.windowed (axis.rowWindow first last)).moves.map call.write).map
        (Write.rebase (axis.rowWindow first last).origin) := by
    rw [List.map_map]
    rfl
  rw [hwrite, hmap, last_rebase]
  refine last_eq_of_on ?_
  have hbase : ∀ move, (call.write move).cell = move.2 - 0 := by
    intro move
    rw [write_cell, horigin]
  rw [on_map_place hbase, on_map_place hbase, add_zero]
  congr 1
  -- rows before and after the window have no cell in it
  have hmoves : call.moves = (intRange 0 axis.extent).flatMap fun i =>
      visits axes (0 + i * axis.srcStride) (0 + (i + axis.lo) * axis.dstStride) := by
    rw [moves, hlayout, hwindow]
    rfl
  have hmoves' : (call.windowed (axis.rowWindow first last)).moves =
      (intRange (axis.rowWindow first last).first (axis.rowWindow first last).last).flatMap fun i =>
        visits axes (0 + i * axis.srcStride) (0 + (i + axis.lo) * axis.dstStride) := by
    have hlayout' : (call.windowed (axis.rowWindow first last)).layout = call.layout := rfl
    rw [moves, hlayout', hlayout]
    rfl
  have hextent := hall.1.1
  have hbounds : 0 ≤ (axis.rowWindow first last).first ∧ (axis.rowWindow first last).first ≤
      (axis.rowWindow first last).last ∧ (axis.rowWindow first last).last ≤ axis.extent := by
    simp only [WalkAxis.rowWindow]
    omega
  rw [hmoves, hmoves', List.filter_flatMap, List.filter_flatMap]
  refine (flatMap_intRange_within hbounds fun i hi hout => ?_).symm
  rw [List.filter_eq_nil_iff]
  intro move hmove heq
  rw [zero_add, zero_add] at hmove
  rw [decide_eq_true_eq] at heq
  have hcells := row_cells hall.2 hdisjoint hmove
  simp only [WalkAxis.rowWindow] at hcell heq hout
  rw [sub_mul] at hcell
  have hside : i + axis.lo + 1 ≤ first ∨ last ≤ i + axis.lo := by omega
  rcases hside with hlt | hge
  · have : (i + axis.lo + 1) * axis.dstStride ≤ first * axis.dstStride :=
      mul_le_mul_of_nonneg_right hlt hall.1.2.2
    omega
  · have : last * axis.dstStride ≤ (i + axis.lo) * axis.dstStride :=
      mul_le_mul_of_nonneg_right hge hall.1.2.2
    omega

end Checked

end HostCall

/-- Rows whose padded cells are apart write apart. -/
theorem HostCall.rowsDisjoint_of_reach {call : HostCall}
    (haxes : call.layout.walkAxes = axis :: axes)
    (hall : ∀ other ∈ axes, 1 ≤ other.extent ∧ (0 ≤ other.lo ∧ 0 ≤ other.hi) ∧
      0 ≤ other.dstStride)
    (hdisjoint : Strides.reach (axes.map WalkAxis.target) + 1 ≤ axis.dstStride) :
    call.rowsDisjoint := by
  unfold HostCall.rowsDisjoint
  rw [haxes]
  have hpads : 0 ≤ (axes.map fun other => (other.lo + other.hi) * other.dstStride).sum :=
    sum_mul_nonneg fun other hother => by
      have := hall other hother
      omega
  rw [reach_target] at hdisjoint
  dsimp only
  omega

/-! ### All windows -/

/-- The fill has every cell of a window, or none. -/
theorem last_prefill {window : RowWindow} {fill : Option Nat} {cell : Int}
    (hcell : 0 ≤ cell ∧ cell < window.elements) :
    Writes.last (prefill width window fill) cell = fill.map fun bits => bits % 2 ^ (8 * width) := by
  cases fill with
  | none => rfl
  | some bits =>
      cases hlast : Writes.last (prefill width window (some bits)) cell with
      | none =>
          rw [last_eq_none] at hlast
          exact absurd rfl (hlast ⟨cell, bits % 2 ^ (8 * width)⟩
            (List.mem_map.mpr ⟨cell, mem_intRange.mpr hcell, rfl⟩))
      | some value =>
          obtain ⟨write, hwrite, -, rfl⟩ := exists_of_last hlast
          obtain ⟨_, -, rfl⟩ := List.mem_map.mp hwrite
          rfl

/-- The memory of a buffer from a cell on. -/
def sliced (memory : Memory Nat) (origin : Int) : Memory Nat := fun cell => memory (cell + origin)

/-- One window against the whole call. -/
theorem executes_window (hsound : program.Sound plan)
    (haxes : program.plan.layout.walkAxes = axis :: axes)
    (hdisjoint : Strides.reach (axes.map WalkAxis.target) + 1 ≤ axis.dstStride) {call : HostCall}
    (hcall : prologue program fromStage toStage none source = .ok call) {chunk : Chunk}
    (hwindow : ∀ call', prologue program fromStage toStage (some chunk) source = .ok call' ↔
      ∃ call, prologue program fromStage toStage none source = .ok call ∧
        call' = call.windowed (axis.rowWindow first last))
    {aligned : Bool} {memory : Memory Nat} {result : Outcome ExecutionError (Memory Nat)}
    (hexecutes : Executes program fromStage toStage (some chunk) aligned source
      (sliced memory (axis.rowWindow first last).origin) result) :
    ((∃ part, result = .ok part) ↔
      ∀ move ∈ rangedVisits call.layout.walkAxes (axis.rowWindow first last).first
        (axis.rowWindow first last).last 0 0, ∃ write, call.step move = .ok write) ∧
      ∀ part, result = .ok part → ∀ cell, 0 ≤ cell → cell < (axis.rowWindow first last).elements →
        part cell = run (call.moves.map call.write)
          (run (prefill call.state.widthTo call.window call.fill) memory)
            (cell + (axis.rowWindow first last).origin) := by
  have h := prologue_eq_ok hcall
  have hall := hsound.laid.axes
  rw [haxes, List.forall_mem_cons] at hall
  have hwindowed := (hwindow _).mpr ⟨call, hcall, rfl⟩
  have hlayout : (call.windowed (axis.rowWindow first last)).layout.walkAxes = axis :: axes := by
    rw [← haxes, ← h.layout_eq]
    rfl
  have hruns : ∀ written, result = .ok written ↔
      (call.windowed (axis.rowWindow first last)).Good ∧
        written = run ((call.windowed (axis.rowWindow first last)).moves.map
          (call.windowed (axis.rowWindow first last)).write)
          (run (prefill call.state.widthTo (axis.rowWindow first last) call.fill)
            (sliced memory (axis.rowWindow first last).origin)) := by
    intro written
    rw [hsound.executes_eq_ok (fun call' hcall' => ?_) hexecutes]
    · simp only [hwindowed, Outcome.ok.injEq, exists_eq_left']
      rfl
    · rw [hwindowed, Outcome.ok.injEq] at hcall'
      subst hcall'
      exact (prologue_eq_ok hwindowed).keepsOrder_of_disjoint hsound
        (HostCall.rowsDisjoint_of_reach hlayout hall.2 hdisjoint)
  rw [← h.good_windowed hsound haxes hdisjoint]
  constructor
  · constructor
    · rintro ⟨part, hpart⟩
      exact ((hruns part).mp hpart).1
    · intro hgood
      exact ⟨_, (hruns _).mpr ⟨hgood, rfl⟩⟩
  · intro part hpart cell hlow hhigh
    obtain ⟨-, rfl⟩ := (hruns part).mp hpart
    rw [run_apply, run_apply, run_apply, run_apply,
      h.last_windowed hsound haxes hdisjoint ⟨hlow, hhigh⟩]
    obtain ⟨-, horigin, hend⟩ := (prologue_eq_ok hwindowed).window_bounds hsound hlayout
    simp only [HostCall.windowed] at horigin hend
    have hwhole := (h.window_none hsound haxes).1
    rw [last_prefill ⟨hlow, hhigh⟩, last_prefill (by rw [hwhole]; simp only; omega)]
    rfl

/-- Windows of consecutive rows follow each other in the destination. -/
theorem ChunkSchedule.Rowed.tiles_windows {bound : BoundPlan}
    (h : schedule.Rowed bound axis axes) (hfits : FitsI64 (axis.padded * schedule.rowBytes))
    {parts : List (Int × Int)} {start : Int} (hstart : 0 ≤ start)
    (hparts : Partition start parts axis.padded) :
    Tiles (start * schedule.rowBytes)
      (parts.map fun part => schedule.window axis.extent part.1 part.2)
      (axis.padded * schedule.rowBytes) := by
  induction parts generalizing start with
  | nil =>
      obtain rfl : start = axis.padded := hparts
      rfl
  | cons part rest ih =>
      obtain ⟨rfl, hlt, hrest⟩ := hparts
      have hle := hrest.le
      have hpos := h.rowPos
      have hcount : 0 < (part.2 - part.1) * schedule.rowBytes := mul_pos (by omega) hpos
      have hbound : (part.2 - part.1) * schedule.rowBytes ≤ axis.padded * schedule.rowBytes :=
        mul_le_mul_of_nonneg_right (by omega) hpos.le
      have hbytes : ((schedule.window axis.extent part.1 part.2).bytes : Int) =
          (part.2 - part.1) * schedule.rowBytes := by
        refine toSize_of_nonneg hcount.le ?_
        unfold FitsI64 at hfits ⊢
        omega
      have hnext : part.1 * schedule.rowBytes +
          (schedule.window axis.extent part.1 part.2).bytes = part.2 * schedule.rowBytes := by
        rw [hbytes]
        ring
      refine ⟨rfl, ?_, ?_⟩
      · change 0 < (schedule.window axis.extent part.1 part.2).bytes
        omega
      · rw [hnext]
        exact ih (by omega) hrest

/-- The results of the windows of a schedule, each on its slice of a buffer. -/
def ExecutesWindows (program : Program) (fromStage toStage : Nat) (elementSize : Nat)
    (windows : List Chunk) (source memory : Memory Nat)
    (results : List (Outcome ExecutionError (Memory Nat))) : Prop :=
  List.Forall₂ (fun window result => ∃ aligned, Executes program fromStage toStage (some window)
    aligned source (sliced memory (window.byteOffset / elementSize)) result) windows results

/-- The windows have the cells of one run over all rows. -/
def Concatenates (elementSize : Nat) (windows : List Chunk)
    (results : List (Outcome ExecutionError (Memory Nat))) (whole : Memory Nat) : Prop :=
  List.Forall₂ (fun window result => ∃ part, result = .ok part ∧
    ∀ cell : Int, 0 ≤ cell → cell < window.bytes / elementSize →
      part cell = whole (cell + window.byteOffset / elementSize)) windows results

/-- A run that succeeds has a range of the program and settled pads. -/
theorem Executes.ready {chunk : Option Chunk} {aligned : Bool} {memory written : Memory Nat}
    (h : Executes program fromStage toStage chunk aligned source memory (.ok written)) :
    ∃ call, prologue program fromStage toStage chunk source = .ok call := by
  unfold Executes at h
  cases hcall : prologue program fromStage toStage chunk source with
  | ok call => exact ⟨call, rfl⟩
  | error reason =>
      rw [hcall] at h
      cases h
  | fault kind =>
      rw [hcall] at h
      cases h

namespace HostCall.Checked

variable {call : HostCall} {parts : List (Int × Int)}

/-- The elements of all windows are those of the whole call. -/
theorem good_iff_parts (hsound : program.Sound plan)
    (h : call.Checked program fromStage toStage none source)
    (haxes : program.plan.layout.walkAxes = axis :: axes)
    (hdisjoint : Strides.reach (axes.map WalkAxis.target) + 1 ≤ axis.dstStride)
    (hcells : axis.padded * axis.dstStride = program.resultElements)
    (hparts : Partition 0 parts axis.padded) :
    call.Good ↔ ∀ part ∈ parts, ∀ move ∈ rangedVisits call.layout.walkAxes
      (axis.rowWindow part.1 part.2).first (axis.rowWindow part.1 part.2).last 0 0,
        ∃ write, call.step move = .ok write := by
  obtain ⟨hwindow, -⟩ := h.window_none hsound haxes
  have hall := hsound.laid.axes
  rw [haxes, List.forall_mem_cons] at hall
  have hlayout : call.layout.walkAxes = axis :: axes := by rw [h.layout_eq, haxes]
  have hmem : ∀ move, move ∈ call.moves ↔ ∃ i, (0 ≤ i ∧ i < axis.extent) ∧
      move ∈ visits axes (0 + i * axis.srcStride) (0 + (i + axis.lo) * axis.dstStride) := by
    intro move
    rw [moves, hlayout, hwindow, mem_rangedVisits]
  have hinside : call.Inside := by
    intro move hmove
    obtain ⟨i, hi, hvisit⟩ := (hmem move).mp hmove
    rw [zero_add, zero_add] at hvisit
    have hcell := row_cells hall.2 hdisjoint hvisit
    have hpadded : axis.padded = axis.extent + axis.lo + axis.hi := rfl
    have hlow : 0 ≤ (i + axis.lo) * axis.dstStride := mul_nonneg (by omega) hall.1.2.2
    have hhigh : (i + axis.lo + 1) * axis.dstStride ≤ axis.padded * axis.dstStride :=
      mul_le_mul_of_nonneg_right (by omega) hall.1.2.2
    rw [hwindow]
    simp only
    omega
  rw [Good, and_iff_right hinside]
  constructor
  · intro hgood part hpart move hmove
    rw [hlayout, mem_rangedVisits] at hmove
    obtain ⟨i, hi, hvisit⟩ := hmove
    refine hgood move ((hmem move).mpr ⟨i, ?_, hvisit⟩)
    simp only [WalkAxis.rowWindow] at hi
    omega
  · intro hgood move hmove
    obtain ⟨i, hi, hvisit⟩ := (hmem move).mp hmove
    -- the part that has the padded row of the element
    have hpadded : axis.padded = axis.extent + axis.lo + axis.hi := rfl
    obtain ⟨part, hpart, hrow⟩ := hparts.exists_mem (i := i + axis.lo) (by omega)
    refine hgood part hpart move ?_
    rw [hlayout, mem_rangedVisits]
    refine ⟨i, ?_, hvisit⟩
    simp only [WalkAxis.rowWindow]
    omega

end HostCall.Checked

/-- All windows against the whole call. -/
theorem executes_parts (hsound : program.Sound plan)
    (haxes : program.plan.layout.walkAxes = axis :: axes)
    (hdisjoint : Strides.reach (axes.map WalkAxis.target) + 1 ≤ axis.dstStride)
    (hcells : axis.padded * axis.dstStride = program.resultElements) {parts : List (Int × Int)}
    (hparts : Partition 0 parts axis.padded) {chunk : Int × Int → Chunk} {elementSize : Nat}
    (hwindows : ∀ part ∈ parts, (∀ call',
        prologue program fromStage toStage (some (chunk part)) source = .ok call' ↔
          ∃ call, prologue program fromStage toStage none source = .ok call ∧
            call' = call.windowed (axis.rowWindow part.1 part.2)) ∧
      (chunk part).byteOffset / elementSize = (axis.rowWindow part.1 part.2).origin ∧
        ((chunk part).bytes : Int) / elementSize = (axis.rowWindow part.1 part.2).elements)
    {aligned : Bool} {memory : Memory Nat} {whole : Outcome ExecutionError (Memory Nat)}
    (hwhole : Executes program fromStage toStage none aligned source memory whole)
    {results : List (Outcome ExecutionError (Memory Nat))}
    (hresults : ExecutesWindows program fromStage toStage elementSize (parts.map chunk) source
      memory results) :
    ((∃ written, whole = .ok written) ↔
        results ≠ [] ∧ ∀ result ∈ results, ∃ part, result = .ok part) ∧
      ∀ written, whole = .ok written →
        Concatenates elementSize (parts.map chunk) results written := by
  have hpadded : 0 < axis.padded := by
    have hall := hsound.laid.axes axis (by rw [haxes]; simp)
    have hsum : axis.padded = axis.extent + axis.lo + axis.hi := rfl
    omega
  have hne : parts ≠ [] := by
    rintro rfl
    have hzero : (0 : Int) = axis.padded := hparts
    omega
  rw [ExecutesWindows, List.forall₂_map_left_iff] at hresults
  have hlength := hresults.length_eq
  have hnonempty : results ≠ [] := by
    rintro rfl
    exact hne (List.length_eq_zero_iff.mp hlength)
  by_cases hready : ∃ call, prologue program fromStage toStage none source = .ok call
  · obtain ⟨call, hcall⟩ := hready
    have h := prologue_eq_ok hcall
    have hlayout : call.layout.walkAxes = axis :: axes := by rw [h.layout_eq, haxes]
    have hkeeps : ∀ call', prologue program fromStage toStage none source = .ok call' →
        call'.KeepsOrder := by
      intro call' hcall'
      rw [hcall, Outcome.ok.injEq] at hcall'
      subst hcall'
      have hall := hsound.laid.axes
      rw [haxes, List.forall_mem_cons] at hall
      exact h.keepsOrder_of_disjoint hsound
        (HostCall.rowsDisjoint_of_reach hlayout hall.2 hdisjoint)
    have hrun : ∀ written, whole = .ok written ↔ call.Good ∧
        written = run (call.moves.map call.write)
          (run (prefill call.state.widthTo call.window call.fill) memory) := by
      intro written
      rw [hsound.executes_eq_ok hkeeps hwhole, hcall]
      simp only [Outcome.ok.injEq, exists_eq_left']
    have heach : List.Forall₂ (fun part result =>
        ((∃ part, result = .ok part) ↔ ∀ move ∈ rangedVisits call.layout.walkAxes
          (axis.rowWindow part.1 part.2).first (axis.rowWindow part.1 part.2).last 0 0,
            ∃ write, call.step move = .ok write) ∧
          ∀ written, result = .ok written → ∀ cell : Int, 0 ≤ cell →
            cell < ((chunk part).bytes : Int) / elementSize →
              written cell = run (call.moves.map call.write)
                (run (prefill call.state.widthTo call.window call.fill) memory)
                  (cell + (chunk part).byteOffset / elementSize)) parts results := by
      rw [List.forall₂_iff_get] at hresults ⊢
      refine ⟨hlength, fun k hk hk' => ?_⟩
      obtain ⟨_, hexecutes⟩ := hresults.2 k hk hk'
      obtain ⟨hcalls, horigin, hcount⟩ := hwindows _ (List.get_mem parts ⟨k, hk⟩)
      rw [horigin] at hexecutes
      rw [horigin, hcount]
      exact executes_window hsound haxes hdisjoint hcall hcalls hexecutes
    have hgood : call.Good ↔ ∀ result ∈ results, ∃ part, result = .ok part := by
      rw [h.good_iff_parts hsound haxes hdisjoint hcells hparts]
      rw [List.forall₂_iff_get] at heach
      constructor
      · intro hall result hresult
        obtain ⟨k, rfl⟩ := List.get_of_mem hresult
        have hk : k.1 < parts.length := by
          rw [hlength]
          exact k.2
        exact (heach.2 k hk k.2).1.mpr (hall _ (List.get_mem parts ⟨k, hk⟩))
      · intro hall part hpart
        obtain ⟨k, rfl⟩ := List.get_of_mem hpart
        have hk : k.1 < results.length := by
          rw [← hlength]
          exact k.2
        exact (heach.2 k k.2 hk).1.mp (hall _ (List.get_mem results ⟨k, hk⟩))
    constructor
    · constructor
      · rintro ⟨written, hwritten⟩
        exact ⟨hnonempty, hgood.mp ((hrun written).mp hwritten).1⟩
      · rintro ⟨-, hall⟩
        exact ⟨_, (hrun _).mpr ⟨hgood.mpr hall, rfl⟩⟩
    · intro written hwritten
      obtain ⟨hcallGood, rfl⟩ := (hrun written).mp hwritten
      have hall := hgood.mp hcallGood
      rw [Concatenates, List.forall₂_map_left_iff, List.forall₂_iff_get]
      rw [List.forall₂_iff_get] at heach
      refine ⟨hlength, fun k hk hk' => ?_⟩
      obtain ⟨part, hpart⟩ := hall _ (List.get_mem results ⟨k, hk'⟩)
      exact ⟨part, hpart, (heach.2 k hk hk').2 part hpart⟩
  · have hfails : ∀ written, whole ≠ .ok written := by
      rintro written rfl
      exact hready hwhole.ready
    refine ⟨⟨fun ⟨written, hwritten⟩ => absurd hwritten (hfails written), ?_⟩,
      fun written hwritten => absurd hwritten (hfails written)⟩
    rintro ⟨-, hall⟩
    obtain ⟨part, rest, rfl⟩ := List.exists_cons_of_ne_nil hne
    obtain ⟨result, results', ⟨_, hexecutes⟩, -, rfl⟩ := List.forall₂_cons_left_iff.mp hresults
    obtain ⟨written, rfl⟩ := hall result (by simp)
    obtain ⟨call', hcall'⟩ := hexecutes.ready
    obtain ⟨call, hcall, -⟩ := ((hwindows part (by simp)).1 call').mp hcall'
    exact absurd ⟨call, hcall⟩ hready

/-- Decoded, bound and prepared: where the rows of a schedule are disjoint and have all
    bytes, the windows of its split chunks succeed exactly when one run over all rows does,
    tile its destination and have its cells. -/
theorem executes_windows {data : List UInt8} {map : SymbolMap} {parameters : ParameterMap}
    {bound : TypedBoundPlan} (hdecode : decodeTypedPlan data = .ok plan)
    (hbind : bindTyped plan map parameters = .ok bound)
    (hprepare : prepareProgram bound = .ok program)
    (hwire : program.wire toStage = .ok wire)
    (hplan : (planChunks wire nBuffers chunkSizeOverride : Outcome ExecutionError _) = .ok schedule)
    (hpartitionable : schedule.Partitionable wire.totalBytes) {outer : Int}
    (houter : wire.extents[0]? = some outer) {splits : Chunk → List (Int × Int)}
    (hsplits : ∀ chunk ∈ schedule.chunks, Partition chunk.paddedBegin (splits chunk)
      chunk.paddedEnd)
    {aligned : Bool} {memory : Memory Nat} {whole : Outcome ExecutionError (Memory Nat)}
    (hwhole : Executes program fromStage toStage none aligned source memory whole)
    {results : List (Outcome ExecutionError (Memory Nat))}
    (hresults : ExecutesWindows program fromStage toStage wire.elementSize
      (schedule.windows outer splits) source memory results) :
    ((∃ written, whole = .ok written) ↔
        results ≠ [] ∧ ∀ result ∈ results, ∃ part, result = .ok part) ∧
      ∀ written, whole = .ok written →
        Tiles 0 (schedule.windows outer splits) wire.totalBytes ∧
          Concatenates wire.elementSize (schedule.windows outer splits) results written := by
  have hsound := Program.sound hdecode hbind hprepare
  obtain ⟨axis, axes, haxes⟩ := hsound.walkAxes_eq
  by_cases hready : toStage ≤ program.stages.length ∧ program.padsSettledBy toStage = true
  · obtain ⟨hto, hsettled⟩ := hready
    obtain ⟨hlaid, hwalk, hes, htotalElements⟩ := hsound.laid_wire hto hsettled hwire
    have hrowed := hlaid.planChunks_rows (hwalk.trans haxes) hplan hpartitionable.1
    have htotal := hrowed.total hpartitionable
    have hfits : FitsI64 (axis.padded * schedule.rowBytes) := htotal ▸ hlaid.fits
    rw [hlaid.extents, hwalk, haxes, List.map_cons, List.getElem?_cons_zero,
      Option.some.injEq] at houter
    subst houter
    have hparts := hrowed.partition hsplits
    have hwindows : schedule.windows axis.extent splits = (schedule.chunks.flatMap splits).map
        fun part => schedule.window axis.extent part.1 part.2 := by
      rw [ChunkSchedule.windows, List.map_flatMap]
    have hcells : axis.padded * axis.dstStride = program.resultElements := by
      have hsize : (wire.elementSize : Int) ≠ 0 := by exact_mod_cast hlaid.size.ne'
      refine mul_right_cancel₀ hsize ?_
      rw [← htotalElements, ← htotal, hrowed.rowBytes, mul_assoc]
    rw [hwindows] at hresults ⊢
    have hrows : ∀ part ∈ schedule.chunks.flatMap splits,
        0 ≤ part.1 ∧ part.1 < part.2 ∧ part.2 ≤ axis.padded := fun part hpart =>
      hparts.bounds hpart
    obtain ⟨hiff, hconcat⟩ := executes_parts hsound haxes hrowed.disjoint hcells hparts
      (fun part hpart => ⟨fun call' => prologue_window (hsound.fetch_extent haxes)
          (fun width hwidth _ _ => resolveWindow_window hsound hto hsettled haxes hwire hplan
            hpartitionable hwidth (hrows part hpart)),
        hrowed.window_cells hlaid hfits (hrows part hpart)⟩) hwhole hresults
    refine ⟨hiff, fun written hwritten => ⟨?_, hconcat written hwritten⟩⟩
    have htiles := hrowed.tiles_windows hfits (le_refl 0) hparts
    rwa [zero_mul, htotal] at htiles
  · have hfails : ∀ chunk aligned memory written, ¬ Executes program fromStage toStage chunk aligned
        source memory (.ok written) := by
      intro chunk aligned memory written hexecutes
      obtain ⟨call, hcall⟩ := hexecutes.ready
      have h := prologue_eq_ok hcall
      exact hready ⟨h.range.2, h.settled⟩
    constructor
    · constructor
      · rintro ⟨written, rfl⟩
        exact absurd hwhole (hfails _ _ _ _)
      · rintro ⟨hne, hall⟩
        obtain ⟨result, results', rfl⟩ := List.exists_cons_of_ne_nil hne
        obtain ⟨written, rfl⟩ := hall result (by simp)
        obtain ⟨_, _, ⟨_, hexecutes⟩, -, -⟩ := List.forall₂_cons_right_iff.mp hresults
        exact absurd hexecutes (hfails _ _ _ _)
    · rintro written rfl
      exact absurd hwhole (hfails _ _ _ _)

end Window

/-! ### Two rows of strips -/

/-- One chunk a row. -/
def stripsSchedule : ChunkSchedule where
  chunks := [⟨0, 1, 0, 1, 0, 32⟩, ⟨1, 2, 1, 2, 32, 32⟩]
  maxChunkBytes := 32
  outerLo := 0
  rowBytes := 32
  serialized := false

/-- Strips that keep to their rows, or lie between those of the other, have good elements. -/
theorem stripsCall_good {outer middle : Int}
    (hinside : (stripsCall outer middle fun _ => 0).Inside) :
    (stripsCall outer middle fun _ => 0).Good := by
  refine ⟨hinside, fun move _ => ⟨(stripsCall outer middle fun _ => 0).state.move move, ?_⟩⟩
  have hkernel : (stripsCall outer middle fun _ => 0).kernel = .stridedRuns := rfl
  rw [HostCall.step, if_neg (by rw [hkernel]; decide)]

/-- The rows of strips that have cells of their own. -/
theorem executes_windows_strips :
    ∃ written results, Executes (stripsProgram 16 8) 0 1 none true (fun _ => 0) (fun _ => 1)
        (.ok written) ∧
      ExecutesWindows (stripsProgram 16 8) 0 1 2
        (stripsSchedule.windows 2 fun chunk => [(chunk.paddedBegin, chunk.paddedEnd)])
        (fun _ => 0) (fun _ => 1) results ∧
      Concatenates 2 (stripsSchedule.windows 2 fun chunk => [(chunk.paddedBegin, chunk.paddedEnd)])
        results written := by
  have hdecode : decodeTypedPlan (writeTypedPlan (strips 16 8)) = .ok (strips 16 8) := by
    decide +kernel
  have hbind : bindTyped (strips 16 8) noSymbols noParameters = .ok (stripsBound 16 8) := by
    decide +kernel
  have hprepare : prepareProgram (stripsBound 16 8) = .ok (stripsProgram 16 8) := by
    decide +kernel
  have hwire : (stripsProgram 16 8).wire 1 = .ok (stripsBound 16 8).layout := by decide +kernel
  have hplan : (planChunks (stripsBound 16 8).layout 2 32 : Outcome ExecutionError _) =
      .ok stripsSchedule := by decide +kernel
  have hsound := Program.sound hdecode hbind hprepare
  have hcall : prologue (stripsProgram 16 8) 0 1 none (fun _ => 0) =
      .ok (stripsCall 16 8 fun _ => 0) := rfl
  have hgood : (stripsCall 16 8 fun _ => 0).Good :=
    stripsCall_good (by unfold HostCall.Inside; decide +kernel)
  have hkeeps : ∀ call, prologue (stripsProgram 16 8) 0 1 none (fun _ => 0) = .ok call →
      call.KeepsOrder := by
    intro call hcall'
    rw [hcall, Outcome.ok.injEq] at hcall'
    subst hcall'
    refine (prologue_eq_ok hcall).keepsOrder_of_disjoint hsound ?_
    change 7 + (8 + 0) < (16 : Int)
    decide
  obtain ⟨whole, hwhole⟩ := exists_executes (stripsProgram 16 8) 0 1 none true (fun _ => 0)
    (fun _ => 1)
  have hwritten := (hsound.executes_eq_ok hkeeps hwhole).mpr ⟨_, hcall, hgood, rfl⟩
  subst hwritten
  obtain ⟨first, hfirst⟩ := exists_executes (stripsProgram 16 8) 0 1 (some ⟨0, 1, 0, 1, 0, 32⟩) true
    (fun _ => 0) (sliced (fun _ => 1) 0)
  obtain ⟨second, hsecond⟩ := exists_executes (stripsProgram 16 8) 0 1
    (some ⟨1, 2, 1, 2, 32, 32⟩) true (fun _ => 0) (sliced (fun _ => 1) 16)
  have hresults : ExecutesWindows (stripsProgram 16 8) 0 1 2
      (stripsSchedule.windows 2 fun chunk => [(chunk.paddedBegin, chunk.paddedEnd)])
      (fun _ => 0) (fun _ => 1) [first, second] :=
    .cons ⟨true, hfirst⟩ (.cons ⟨true, hsecond⟩ .nil)
  have hsplits : ∀ chunk ∈ stripsSchedule.chunks, Partition chunk.paddedBegin
      [(chunk.paddedBegin, chunk.paddedEnd)] chunk.paddedEnd := by
    intro chunk hchunk
    have hlt : chunk.paddedBegin < chunk.paddedEnd := by
      revert chunk
      decide
    exact ⟨rfl, hlt, rfl⟩
  have hwindows := executes_windows hdecode hbind hprepare hwire hplan ⟨rfl, _, rfl, rfl⟩ rfl
    hsplits hwhole hresults
  exact ⟨_, _, hwhole, hresults, (hwindows.2 _ rfl).2⟩

/-- Rows whose strips lie between those of the other: a run over all rows succeeds, and the
    only chunk of the schedule is refused. -/
theorem executes_windows_interleaved :
    decodeTypedPlan (writeTypedPlan (strips 8 16)) = .ok (strips 8 16) ∧
    bindTyped (strips 8 16) noSymbols noParameters = .ok (stripsBound 8 16) ∧
    prepareProgram (stripsBound 8 16) = .ok (stripsProgram 8 16) ∧
    ∃ schedule wire, (stripsProgram 8 16).wire 1 = .ok wire ∧
      (planChunks wire 2 32 : Outcome ExecutionError _) = .ok schedule ∧
      (∃ written, Executes (stripsProgram 8 16) 0 1 none true (fun _ => 0) (fun _ => 1)
        (.ok written)) ∧
      ∀ chunk ∈ schedule.chunks, ∀ aligned memory result, Executes (stripsProgram 8 16) 0 1
        (some chunk) aligned (fun _ => 0) memory result →
          ∃ message, result = .error ⟨.invalidChunk, message⟩ := by
  have hdecode : decodeTypedPlan (writeTypedPlan (strips 8 16)) = .ok (strips 8 16) := by
    decide +kernel
  have hbind : bindTyped (strips 8 16) noSymbols noParameters = .ok (stripsBound 8 16) := by
    decide +kernel
  have hprepare : prepareProgram (stripsBound 8 16) = .ok (stripsProgram 8 16) := by
    decide +kernel
  have hsound := Program.sound hdecode hbind hprepare
  have hcall : prologue (stripsProgram 8 16) 0 1 none (fun _ => 0) =
      .ok (stripsCall 8 16 fun _ => 0) := rfl
  refine ⟨hdecode, hbind, hprepare,
    wholeSchedule (stripsBound 8 16).layout 0 2 16 2, (stripsBound 8 16).layout,
    by decide +kernel, by decide +kernel, ?_, ?_⟩
  · obtain ⟨whole, hwhole⟩ := exists_executes (stripsProgram 8 16) 0 1 none true (fun _ => 0)
      (fun _ => 1)
    have hkeeps : ∀ call, prologue (stripsProgram 8 16) 0 1 none (fun _ => 0) = .ok call →
        call.KeepsOrder := by
      intro call hcall' outer middle inner _ haxes hstream
      rw [hcall, Outcome.ok.injEq] at hcall'
      subst hcall'
      have haxes' : (stripsCall 8 16 fun _ => 0).layout.walkAxes =
          [⟨2, 8, 8, 0, 0⟩, ⟨2, 16, 16, 0, 0⟩, ⟨8, 1, 1, 0, 0⟩] := by rfl
      have heq := haxes.symm.trans haxes'
      simp only [List.cons.injEq, and_true] at heq
      obtain ⟨rfl, rfl, rfl⟩ := heq
      have hone : ∀ x ∈ (WalkState.columnStrips ⟨2, 8, 8, 0, 0⟩ ⟨2, 16, 16, 0, 0⟩ ⟨8, 1, 1, 0, 0⟩
          0 2).map (fun move => (⟨move.2, move.1⟩ : Write Int)),
          ∀ y ∈ (WalkState.columnStrips ⟨2, 8, 8, 0, 0⟩ ⟨2, 16, 16, 0, 0⟩ ⟨8, 1, 1, 0, 0⟩ 0 2).map
            (fun move => (⟨move.2, move.1⟩ : Write Int)), x.cell = y.cell → x = y := by
        decide +kernel
      intro _ d
      left
      refine last_eq_of_mem (fun write => ?_) hone d
      rw [List.mem_map, List.mem_map]
      exact exists_congr fun move => and_congr_left' WalkState.mem_columnStrips
    have hwritten := (hsound.executes_eq_ok hkeeps hwhole).mpr ⟨_, hcall,
      stripsCall_good (by unfold HostCall.Inside; decide +kernel), rfl⟩
    subst hwritten
    exact ⟨_, hwhole⟩
  · intro chunk hchunk aligned memory result hexecutes
    obtain rfl : chunk = ⟨0, 2, 0, 2, 0, 64⟩ := List.mem_singleton.mp hchunk
    have hrefused : prologue (stripsProgram 8 16) 0 1 (some ⟨0, 2, 0, 2, 0, 64⟩) (fun _ => 0) =
        .error ⟨.invalidChunk, "chunk is not a disjoint physical row window"⟩ := rfl
    unfold Executes at hexecutes
    rw [hrefused] at hexecutes
    exact ⟨_, hexecutes⟩

end SymReloc
