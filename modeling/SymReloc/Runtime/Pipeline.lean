import SymReloc.Runtime.BoundAxes
import SymReloc.Runtime.Staging
import SymReloc.Runtime.Transfer

/-!
# The executors of a bound plan

Besides `executeH2D` a bound plan runs through `executeH2DThreaded`, which divides the
outer rows, and through `executeH2DPipelined`, which builds one chunk after the other
in a staging slot and copies each slot to its window of the destination.  The Python
entry `relocateHost` chooses one of the three.
-/

namespace SymReloc

open Outcome

section Code

variable {ε : Type}

/-- What a slot holds when its chunk is submitted. -/
def stageChunk (bound : BoundPlan) (chunk : Chunk) (parts : List (Int × Int))
    (source slot : Memory UInt8) : Outcome ε (Memory UInt8) := do
  let fill ← fillStagingWindow bound chunk.bytes
  let copies ← chunkCopies bound chunk parts
  pure (runCopies source copies (runCopies (pattern fill.1) fill.2 slot))

/-- The copy of a slot to its window of the destination. -/
def Chunk.upload (chunk : Chunk) : ByteCopy :=
  { dst := chunk.byteOffset, src := 0, bytes := chunk.bytes }

/-- How the gather pool divides the rows of a chunk, and what its slot held before. -/
structure Staging where
  parts : Chunk → List (Int × Int)
  slot : Chunk → Memory UInt8

/-- The rows of every chunk are divided into consecutive ranges. -/
def Staging.Divides (staging : Staging) : Prop :=
  ∀ chunk : Chunk, chunk.validBegin < chunk.validEnd →
    Partition chunk.validBegin (staging.parts chunk) chunk.validEnd

/-- `dispatchRows`: a serialized schedule is gathered inline. -/
def Staging.dispatch (staging : Staging) (serialized : Bool) (chunk : Chunk) : List (Int × Int) :=
  if serialized then [(chunk.validBegin, chunk.validEnd)] else staging.parts chunk

def uploadChunks (bound : BoundPlan) (serialized : Bool) (staging : Staging)
    (source : Memory UInt8) : List Chunk → Memory UInt8 → Outcome ε (Memory UInt8)
  | [], memory => .ok memory
  | chunk :: rest, memory => do
      let staged ← stageChunk bound chunk (staging.dispatch serialized chunk) source
        (staging.slot chunk)
      uploadChunks bound serialized staging source rest (chunk.upload.run staged memory)

/-- The capacity test of one chunk. -/
def checkCapacity (bound : BoundPlan) (schedule : ChunkSchedule) (outer : Int) (chunk : Chunk) :
    Outcome TransferError Unit :=
  require (0 ≤ chunk.byteOffset ∧ toSize chunk.byteOffset ≤ toSize bound.totalBytes ∧
      chunk.bytes ≤ toSize bound.totalBytes - toSize chunk.byteOffset ∧
      chunk.bytes ≤ schedule.maxChunkBytes ∧ 0 ≤ chunk.validBegin ∧
      chunk.validBegin ≤ chunk.validEnd ∧ chunk.validEnd ≤ outer)
    (fail "insufficient_capacity" "chunk exceeds transfer capacity")

/-- `executeH2DPrepared`, on a backend that completes every copy. -/
def executeH2DPrepared (bound : BoundPlan) (schedule : ChunkSchedule) (staging : Staging)
    (source memory : Memory UInt8) : Outcome TransferError (Memory UInt8) := do
  require (schedule.chunks ≠ []) (fail "insufficient_capacity" "invalid staging for schedule")
  let outer ← fetch bound.extents 0
  forEach schedule.chunks (checkCapacity bound schedule outer)
  uploadChunks bound schedule.serialized staging source schedule.chunks memory

/-- `executeH2DPipelined`, with the capacity test of its staging pool. -/
def executeH2DPipelined (bound : BoundPlan) (nBuffers : Int) (chunkSizeOverride : Nat)
    (staging : Staging) (source memory : Memory UInt8) :
    Outcome TransferError (Memory UInt8) := do
  let schedule ← planChunks bound nBuffers chunkSizeOverride
  require (schedule.maxChunkBytes ≠ 0 ∧
      schedule.maxChunkBytes ≤ (2 ^ 64 - 1) / toSize (max nBuffers 1))
    (fail "invalid_argument" "invalid staging capacity")
  executeH2DPrepared bound schedule staging source memory

/-- `executeH2DThreaded`, the rows divided into `parts` where they are disjoint. -/
def executeH2DThreaded (bound : BoundPlan) (parts : List (Int × Int))
    (source memory : Memory UInt8) : Outcome ε (Memory UInt8) := do
  let outer ← fetch bound.extents 0
  let fill ← fillDst bound
  let span ← innerSpan bound.extents bound.dstStrides
  let stride ← fetch bound.dstStrides 0
  let next ← add64 span 1
  let copies ← gatherParts bound (if next ≤ stride then parts else [(0, outer)])
  pure (runCopies source copies (runCopies (pattern fill.1) fill.2 memory))

/-! ### The Python entry -/

/-- The last element of the source that a plan reaches, by its strides. -/
def minSrcOffset : List (Int × Int) → Int → Outcome ε Int
  | [], offset => .ok offset
  | entry :: rest, offset => do
      let last ← sub64 entry.1 1
      let step ← mul64 last entry.2
      let offset ← add64 offset step
      minSrcOffset rest offset

def minSrcBytes (bound : BoundPlan) : Outcome ε Nat := do
  let offset ← minSrcOffset (bound.extents.zip bound.srcStrides) 0
  let elements ← add64 offset 1
  exactSize (toSize elements * bound.elementSize)

def checkBuffer (what : String) (ptr nbytes required : Nat) : Outcome String Unit := do
  require (ptr ≠ 0) (what ++ " pointer is null")
  require (required ≤ nbytes) (what ++ " buffer too small: " ++ toString nbytes ++
    " bytes, plan requires " ++ toString required)

def rejectTypedLayout (bound : BoundPlan) (what : String) : Outcome String Unit :=
  require (bound.typed = false) (what ++ ": the bound plan is the layout of a typed plan; " ++
    "layout-only executors would copy source-width bytes into a destination-width " ++
    "allocation (typed execution is R3's dispatch)")

/-- The arguments of a host relocation; `poolClosed` when a pool is given that is closed. -/
structure HostBuffers where
  srcPtr : Nat
  srcBytes : Nat
  dstPtr : Nat
  dstBytes : Nat
  gatherThreads : Int
  poolClosed : Bool

def checkGatherArgs (buffers : HostBuffers) : Outcome String Unit := do
  require (0 ≤ buffers.gatherThreads) "gather_threads must be >= 0 (0 = all cores)"
  require (buffers.poolClosed = false) "gather_pool is closed"

/-- `relocateHost`; `threads` are the row ranges of the threaded executor. -/
def relocateHost (bound : BoundPlan) (buffers : HostBuffers) (threads : List (Int × Int))
    (staging : Staging) (source memory : Memory UInt8) : Outcome String (Memory UInt8) := do
  rejectTypedLayout bound "relocate"
  let srcBytes ← minSrcBytes bound
  checkBuffer "src" buffers.srcPtr buffers.srcBytes srcBytes
  checkBuffer "dst" buffers.dstPtr buffers.dstBytes (toSize bound.totalBytes)
  checkGatherArgs buffers
  match bound.strategy with
  | .multiThreadTiled => executeH2DThreaded bound threads source memory
  | .chunkedPipeline =>
      (executeH2DPipelined bound 2 0 staging source memory).mapError TransferError.message
  | _ => executeH2D bound source memory

end Code

/-! ### What `bind` leaves in the fields of a plan -/

structure BoundPlan.Laid (bound : BoundPlan) : Prop where
  size : 0 < bound.elementSize
  rank : bound.walkAxes ≠ []
  axes : ∀ axis ∈ bound.walkAxes, 1 ≤ axis.extent ∧ (0 ≤ axis.lo ∧ 0 ≤ axis.hi) ∧
    0 ≤ axis.dstStride
  extents : bound.extents = bound.walkAxes.map WalkAxis.extent
  strides : bound.dstStrides = bound.walkAxes.map WalkAxis.dstStride
  outer : ∀ (axis : WalkAxis) (axes : List WalkAxis), bound.walkAxes = axis :: axes →
    outerPad (0, 0) bound.padRegions = (axis.lo, axis.hi)
  padded : ∀ (ε : Type) (padded : List Int),
    (padExtents bound.extents bound.padRegions : Outcome ε _) = .ok padded →
      padded = bound.walkAxes.map WalkAxis.padded
  total : bound.totalBytes = (bound.walkAxes.map WalkAxis.padded).prod * bound.elementSize
  fits : FitsI64 bound.totalBytes

theorem BoundPlan.Laid.one_le_elements {bound : BoundPlan} (h : bound.Laid) :
    1 ≤ (bound.walkAxes.map WalkAxis.padded).prod := by
  refine one_le_prod fun padded hpadded => ?_
  obtain ⟨axis, haxis, rfl⟩ := List.mem_map.mp hpadded
  obtain ⟨hextent, ⟨hlo, hhi⟩, -⟩ := h.axes axis haxis
  simp only [WalkAxis.padded]
  omega

section Assemble

variable {plan : RelocationPlan} {override : Strategy} {axes : List ConcreteAxis}
  {bound : BoundPlan}

theorem nodup_padRegions (axes : List ConcreteAxis) :
    ((padRegions axes).map PadRegion.axis).Nodup := by
  have hsublist : ((padRegions axes).map PadRegion.axis).Sublist (axes.zipIdx.map Prod.snd) := by
    rw [padRegions, List.map_map]
    exact List.Sublist.map _ List.filter_sublist
  refine hsublist.nodup ?_
  rw [List.zipIdx_map_snd]
  exact List.nodup_range'

theorem fields_of_assembleBound (h : assembleBound plan override axes = .ok bound) :
    bound.dstStrides = ((coalesce axes).map Prod.fst).map ConcreteAxis.dstStride ∧
      FitsI64 bound.totalBytes ∧ bound.typed = false := by
  simp only [assembleBound, bind_ok_iff, exists_unit, checkedOr_eq_ok, pure_eq,
    Outcome.ok.injEq] at h
  obtain ⟨-, _, -, _, -, _, ⟨hfits, rfl⟩, rfl⟩ := h
  exact ⟨rfl, hfits, rfl⟩

theorem laid_of_assembleBound (hsound : ∀ axis ∈ axes, axis.Sound) (hne : axes ≠ [])
    (h : assembleBound plan override axes = .ok bound) : bound.Laid := by
  obtain ⟨elements, -, hsize, -, hextents, hbare, hregions, -⟩ := assembleBound_eq_ok h
  have hwalk := walkAxes_of_assembleBound hsound h
  have htotal := totalBytes_of_assembleBound hsound h
  have hmerged := coalesce_sound hsound
  obtain ⟨runs, hruns, hflatten⟩ := exists_runs axes
  obtain ⟨hstrides, hfits, -⟩ := fields_of_assembleBound h
  have hcoalesce : coalesce axes ≠ [] := by
    intro hnil
    rw [hnil] at hruns
    cases hruns
    exact hne hflatten.symm
  have hmem : ∀ a ∈ bound.walkAxes, ∃ entry ∈ coalesce axes, entry.1.walk = a := by
    intro a ha
    rw [hwalk] at ha
    exact List.mem_map.mp ha
  have hbareExtents : bound.extents = bound.bareAxes.map WalkAxis.padded := by
    rw [hextents, hbare, List.map_map, List.map_map, List.map_map]
    refine List.map_congr_left fun entry _ => ?_
    simp [ConcreteAxis.bare, ConcreteAxis.walk, WalkAxis.padded]
  have hnopads : ∀ bare ∈ bound.bareAxes, bare.lo = 0 ∧ bare.hi = 0 := by
    intro bare hmem
    rw [hbare] at hmem
    obtain ⟨entry, -, rfl⟩ := List.mem_map.mp hmem
    exact ⟨rfl, rfl⟩
  constructor
  · exact hsize.1
  · rw [hwalk, Ne, List.map_eq_nil_iff]
    exact hcoalesce
  · intro a ha
    obtain ⟨entry, hentry, rfl⟩ := hmem a ha
    have hs := hmerged entry.1 (List.mem_map_of_mem hentry)
    exact ⟨hs.extent, hs.pads, hs.dst⟩
  · rw [hwalk, hextents, List.map_map, List.map_map]
    rfl
  · rw [hwalk, hstrides, List.map_map, List.map_map]
    rfl
  · intro axis rest haxes
    rw [BoundPlan.walkAxes] at haxes
    cases hbareAxes : bound.bareAxes with
    | nil =>
        rw [hbare, List.map_map, List.map_eq_nil_iff] at hbareAxes
        exact absurd hbareAxes hcoalesce
    | cons bare others =>
        obtain ⟨axes', hattach⟩ := attachRegions_outer bare others bound.padRegions
        obtain ⟨hlo, hhi⟩ := hnopads bare (by rw [hbareAxes]; simp)
        rw [hbareAxes, hattach, hlo, hhi] at haxes
        injection haxes with haxis
        rw [← haxis]
  · intro ε padded hpadded
    rw [hbareExtents] at hpadded
    exact padExtents_eq_ok (fun region _ axis haxis => hnopads axis (List.mem_of_getElem? haxis))
      (hregions ▸ nodup_padRegions _) hpadded
  · have hcells := hruns.cells_eq (hflatten ▸ hsound)
    rw [hflatten] at hcells
    rw [htotal, ← hcells, hwalk, List.map_map]
    rfl
  · exact hfits

end Assemble

/-! ### The whole destination -/

namespace BoundPlan.Laid

variable {ε : Type} {bound : BoundPlan}

/-- The fill covers the destination with the pattern of the first region. -/
theorem fillDst_eq_ok (h : bound.Laid) {fill : Nat × List ByteCopy}
    (hrun : (fillDst bound : Outcome ε _) = .ok fill) : fill.1 = bound.fillBits ∧
      ∀ d s, Moves fill.2 d s ↔
        bound.padRegions ≠ [] ∧ Fills bound.elementSize bound.totalBytes d s := by
  unfold fillDst at hrun
  unfold BoundPlan.fillBits
  cases hpads : bound.padRegions with
  | nil =>
      rw [hpads] at hrun
      cases hrun
      simp
  | cons region rest =>
      simp only [hpads, bind_ok_iff, pure_eq, Outcome.ok.injEq] at hrun
      obtain ⟨padded, hpadded, count, hcount, copies, hcopies, rfl⟩ := hrun
      rw [← hpads] at hpadded
      obtain rfl := h.padded _ _ hpadded
      have hvalue := product_eq_ok hcount
      rw [one_mul] at hvalue
      subst hvalue
      have hnonneg := (zero_le_one).trans h.one_le_elements
      refine ⟨rfl, fun d s => ?_⟩
      rw [h.total]
      simp [moves_fillPattern h.size hnonneg hcopies]

/-- The copies of a run, as the bytes they move. -/
theorem executeH2D_eq_ok (h : bound.Laid) {source memory result : Memory UInt8}
    (hrun : (executeH2D bound source memory : Outcome ε _) = .ok result) :
    ∃ fills copies, (∀ source memory, (executeH2D bound source memory : Outcome ε _) =
        .ok (runCopies source copies (runCopies (pattern bound.fillBits) fills memory))) ∧
      (∀ d s, Moves fills d s ↔
        bound.padRegions ≠ [] ∧ Fills bound.elementSize bound.totalBytes d s) ∧
      ∀ d s, Moves copies d s ↔ ∃ cell ∈ visits bound.walkAxes 0 0, ∃ j : Int,
        0 ≤ j ∧ j < bound.elementSize ∧ d = cell.2 * bound.elementSize + j ∧
          s = cell.1 * bound.elementSize + j := by
  simp only [executeH2D, bind_ok_iff, fetch_eq_ok, pure_eq, Outcome.ok.injEq] at hrun
  obtain ⟨fill, hfill, outer, houter, copies, hcopies, -⟩ := hrun
  obtain ⟨hbits, hfills⟩ := h.fillDst_eq_ok hfill
  have houter' := houter
  cases haxes : bound.walkAxes with
  | nil => exact absurd haxes h.rank
  | cons axis rest =>
      rw [h.extents, haxes] at houter
      cases houter
      have hextent := (h.axes axis (by rw [haxes]; simp)).1
      refine ⟨fill.2, copies, fun source memory => ?_, hfills, fun d s => ?_⟩
      · have hfetch : (fetch bound.extents 0 : Outcome ε Int) = .ok axis.extent :=
          fetch_eq_ok.mpr houter'
        rw [executeH2D, hfill, ok_bind, hfetch, ok_bind, hcopies, ok_bind, hbits, pure_eq]
      · rw [moves_gatherChunk h.size (fun a ha => (h.axes a ha).1) haxes (le_refl 0)
          (by omega) (le_refl _) hcopies, haxes, gathers_iff_visits]

end BoundPlan.Laid

/-! ### The chunks of a plan -/

/-- A chunk starts and ends at elements, and its rows are valid ones. -/
structure Chunk.Placed (bound : BoundPlan) (outer : Int) (chunk : Chunk) : Prop where
  valid : 0 ≤ chunk.validBegin ∧ chunk.validBegin ≤ chunk.validEnd ∧ chunk.validEnd ≤ outer
  base : ∀ (ε : Type) (base : Int),
    (rebase bound chunk.paddedBegin : Outcome ε Int) = .ok base → base = chunk.byteOffset
  aligned : ∃ first : Int, chunk.byteOffset = first * bound.elementSize
  whole : ∃ count : Nat, chunk.bytes = count * bound.elementSize

namespace BoundPlan.Laid

variable {ε : Type} {bound : BoundPlan} {axis : WalkAxis} {axes : List WalkAxis}
  {schedule : ChunkSchedule}

theorem forward (h : bound.Laid) : Strides.Forward bound.targetAxes := by
  intro target htarget
  obtain ⟨a, ha, rfl⟩ := List.mem_map.mp htarget
  obtain ⟨hextent, ⟨hlo, hhi⟩, hstride⟩ := h.axes a ha
  refine ⟨?_, hstride⟩
  simp only [WalkAxis.target, WalkAxis.padded]
  omega

/-- A cell lies in the rows before the one behind its own. -/
theorem offset_lt_row (h : bound.Laid) (haxes : bound.walkAxes = axis :: axes)
    (hrows : Strides.reach (axes.map WalkAxis.target) + 1 ≤ axis.dstStride) {coords : List Int}
    (hbox : Strides.InBox bound.targetAxes coords) :
    0 ≤ Strides.offset bound.targetAxes coords ∧
      Strides.offset bound.targetAxes coords < axis.padded * axis.dstStride := by
  have hforward := h.forward
  refine ⟨Strides.offset_nonneg hforward hbox, ?_⟩
  unfold BoundPlan.targetAxes at hforward hbox ⊢
  rw [haxes, List.map_cons] at hforward hbox ⊢
  rw [Strides.forward_cons] at hforward
  rcases hbox with _ | ⟨hp, hrest⟩
  rename_i p rest
  have hle := Strides.offset_le_reach hforward.2 hrest
  have hrow : (p + 1) * axis.dstStride ≤ axis.padded * axis.dstStride :=
    mul_le_mul_of_nonneg_right (by have := hp.2; simp only [WalkAxis.target] at this; omega)
      hforward.1.2
  have hoffset : Strides.offset (axis.target :: axes.map WalkAxis.target) (p :: rest) =
      p * axis.dstStride + Strides.offset (axes.map WalkAxis.target) rest := rfl
  rw [hoffset]
  linarith

/-- One chunk for the whole destination. -/
theorem placed_wholeSchedule (h : bound.Laid) (haxes : bound.walkAxes = axis :: axes)
    (rowBytes : Int) {chunk : Chunk}
    (hmem : chunk ∈ (wholeSchedule bound axis.lo axis.extent rowBytes axis.padded).chunks) :
    chunk.Placed bound axis.extent ∧ chunk.byteOffset = 0 ∧
      (chunk.bytes : Int) = bound.totalBytes := by
  obtain rfl := List.mem_singleton.mp hmem
  have hextent := (h.axes axis (by rw [haxes]; simp)).1
  have hprod := h.one_le_elements
  have htotal := h.total
  have hsize : (toSize bound.totalBytes : Int) = bound.totalBytes := by
    refine toSize_of_nonneg ?_ h.fits
    rw [htotal]
    positivity
  refine ⟨⟨⟨le_refl 0, by simp only; omega, le_refl _⟩, fun ε base hbase => ?_, ⟨0, by simp⟩,
    ⟨(bound.walkAxes.map WalkAxis.padded).prod.toNat, ?_⟩⟩, rfl, hsize⟩
  · simp only [rebase, bind_ok_iff, exactSize_eq_ok, pure_eq, Outcome.ok.injEq] at hbase
    obtain ⟨_, -, _, ⟨-, rfl⟩, _, ⟨-, rfl⟩, rfl⟩ := hbase
    simp [toSize]
  · zify
    rw [hsize, htotal, Int.toNat_of_nonneg (by omega)]

theorem placed_cut (h : bound.Laid) (haxes : bound.walkAxes = axis :: axes) {chunk : Chunk}
    (hrow : FitsI64 (axis.dstStride * bound.elementSize))
    (hrowPos : 0 < axis.dstStride * bound.elementSize) (hpadded : FitsI64 axis.padded)
    (hcut : chunk.Cut axis.lo axis.extent (axis.dstStride * bound.elementSize) axis.padded) :
    chunk.Placed bound axis.extent := by
  have hend : 0 ≤ chunk.paddedEnd - chunk.paddedBegin :=
    nonneg_of_mul_nonneg_left (hcut.bytes ▸ Int.natCast_nonneg chunk.bytes) hrowPos
  have hstride := (h.axes axis (by rw [haxes]; simp)).2.2
  refine ⟨hcut.range, fun ε base hbase => ?_, ⟨chunk.paddedBegin * axis.dstStride, ?_⟩,
    ⟨((chunk.paddedEnd - chunk.paddedBegin) * axis.dstStride).toNat, ?_⟩⟩
  · have hfits : FitsI64 axis.dstStride := by
      have hle : axis.dstStride * 1 ≤ axis.dstStride * bound.elementSize :=
        mul_le_mul_of_nonneg_left (by exact_mod_cast h.size) hstride
      unfold FitsI64 at hrow ⊢
      omega
    have hbegin : FitsI64 chunk.paddedBegin := by
      have := hcut.first
      unfold FitsI64 at hpadded ⊢
      omega
    simp only [rebase, bind_ok_iff, fetch_eq_ok, h.strides, haxes, List.map_cons,
      List.getElem?_cons_zero, Option.some.injEq, exactSize_eq_ok, pure_eq,
      Outcome.ok.injEq] at hbase
    obtain ⟨_, rfl, _, ⟨-, rfl⟩, _, ⟨-, rfl⟩, rfl⟩ := hbase
    rw [hcut.offset, Nat.cast_mul, Nat.cast_mul, toSize_of_nonneg hcut.first.1 hbegin,
      toSize_of_nonneg hstride hfits, mul_assoc]
  · rw [hcut.offset, mul_assoc]
  · have hnonneg : 0 ≤ (chunk.paddedEnd - chunk.paddedBegin) * axis.dstStride :=
      mul_nonneg hend hstride
    zify
    rw [hcut.bytes, Int.toNat_of_nonneg hnonneg, mul_assoc]

/-- The chunks of a plan are placed, and their windows hold every cell of the destination. -/
theorem planChunks_eq_ok (h : bound.Laid) (haxes : bound.walkAxes = axis :: axes)
    {nBuffers : Int} {chunkSizeOverride : Nat}
    (hrun : (planChunks bound nBuffers chunkSizeOverride : Outcome ε _) = .ok schedule) :
    (∀ chunk ∈ schedule.chunks, chunk.Placed bound axis.extent) ∧
      ∀ coords (j : Int), Strides.InBox bound.targetAxes coords → 0 ≤ j → j < bound.elementSize →
        Strides.offset bound.targetAxes coords * bound.elementSize + j < bound.totalBytes →
        ∃ chunk ∈ schedule.chunks,
          chunk.Holds (Strides.offset bound.targetAxes coords * bound.elementSize + j) := by
  have hmem : axis ∈ bound.walkAxes := by rw [haxes]; simp
  obtain ⟨hextent, ⟨hlo, hhi⟩, hstride⟩ := h.axes axis hmem
  have hes : (0 : Int) < bound.elementSize := by exact_mod_cast h.size
  have hsum : axis.extent + axis.lo + axis.hi = axis.padded := rfl
  simp only [planChunks, bind_ok_iff, h.strides, h.outer axis axes haxes, h.extents, haxes,
    List.map_cons, fetch_eq_ok, List.getElem?_cons_zero, Option.some.injEq, mul64_eq_ok,
    add64_eq_ok] at hrun
  obtain ⟨padded, hpadded, _, rfl, _, ⟨hrow, rfl⟩, _, rfl, _, ⟨-, rfl⟩, _, ⟨hfits, rfl⟩,
    span, hspan, _, ⟨-, rfl⟩, hschedule⟩ := hrun
  rw [← List.map_cons (f := WalkAxis.extent), ← haxes, ← h.extents] at hpadded
  have hwidened := h.padded _ _ hpadded
  rw [hwidened, haxes] at hspan
  have hreach := innerSpanFrom_eq_ok hspan
  simp only [List.map_cons, List.zip_cons_cons, List.tail_cons, List.zip_map', List.map_map,
    zero_add] at hreach
  change span = Strides.reach (axes.map WalkAxis.target) at hreach
  rw [hsum, hreach] at hschedule
  have hpos : ∀ {coords} {j : Int}, Strides.InBox bound.targetAxes coords → 0 ≤ j →
      0 ≤ Strides.offset bound.targetAxes coords * bound.elementSize + j := by
    intro coords j hbox hj
    have := mul_nonneg (Strides.offset_nonneg h.forward hbox) hes.le
    omega
  split at hschedule
  · cases hschedule
    refine ⟨fun chunk hchunk => (h.placed_wholeSchedule haxes _ hchunk).1,
      fun coords j hbox hj hjlt hlt => ⟨_, List.mem_singleton_self _, ?_⟩⟩
    obtain ⟨-, hoffset, hbytes⟩ := h.placed_wholeSchedule haxes
      (axis.dstStride * bound.elementSize) (List.mem_singleton_self _)
    have := hpos hbox hj
    exact ⟨by rw [hoffset]; exact this, by rw [hoffset, hbytes]; omega⟩
  · rename_i hrows
    rw [not_or, not_not, not_le] at hrows
    obtain ⟨hdisjoint, hpaddedPos⟩ := hrows
    have hinner := Strides.Forward.reach_nonneg (fun target htarget => h.forward target (by
      unfold BoundPlan.targetAxes
      rw [haxes, List.map_cons]
      exact List.mem_cons_of_mem _ htarget) : Strides.Forward (axes.map WalkAxis.target))
    have hrowPos : 0 < axis.dstStride * bound.elementSize := mul_pos (by omega) hes
    simp only [planRows, bind_ok_iff, mul64_eq_ok, pure_eq, Outcome.ok.injEq] at hschedule
    obtain ⟨target, -, chunks, hchunks, _, -, rfl⟩ := hschedule
    obtain ⟨hrpc, -⟩ := rowsOfTarget_bounds hpaddedPos (hsum ▸ hfits) target
      (axis.dstStride * bound.elementSize)
    obtain ⟨htiles, -, hall⟩ := Rows.cuts ⟨hlo, by omega, by omega, hrowPos, hrpc⟩ (le_refl 0)
      (by omega) (by omega) hchunks
    refine ⟨fun chunk hchunk => ?_, fun coords j hbox hj hjlt hlt => ?_⟩
    · exact h.placed_cut haxes hrow hrowPos (hsum ▸ hfits) (hall chunk hchunk).1
    · rw [zero_mul] at htiles
      obtain ⟨-, hrowlt⟩ := h.offset_lt_row haxes hdisjoint hbox
      have hstep : (Strides.offset bound.targetAxes coords + 1) * bound.elementSize ≤
          axis.padded * axis.dstStride * bound.elementSize :=
        mul_le_mul_of_nonneg_right (by omega) hes.le
      obtain ⟨k, ⟨chunk, hchunk, hholds⟩, -⟩ := htiles.existsUnique ⟨hpos hbox hj, by linarith⟩
      exact ⟨chunk, List.mem_of_getElem? hchunk, hholds⟩

/-! ### A cell that nothing is gathered into -/

/-- No element of the source goes to the cell at `x`. -/
def Free (bound : BoundPlan) (x : Int) : Prop :=
  ∀ cell ∈ visits bound.walkAxes 0 0, cell.2 ≠ x

variable {x j : Int} {parts : List (Int × Int)} {source slot staged memory result : Memory UInt8}
  {copies : List ByteCopy}

/-- An element that starts in the destination ends in it. -/
theorem byte_lt (h : bound.Laid) (hlt : x * bound.elementSize < bound.totalBytes)
    (hj : j < bound.elementSize) : x * bound.elementSize + j < bound.totalBytes := by
  have hes : (0 : Int) < bound.elementSize := by exact_mod_cast h.size
  rw [h.total] at hlt ⊢
  have hcell := lt_of_mul_lt_mul_right hlt hes.le
  have hnext := mul_le_mul_of_nonneg_right (Int.add_one_le_of_lt hcell) hes.le
  rw [add_mul, one_mul] at hnext
  omega

theorem functional_fills {c : Prop} {fills : List ByteCopy} {es : Nat} {total : Int}
    (hfills : ∀ d s, Moves fills d s ↔ c ∧ Fills es total d s) : Functional (Moves fills) := by
  intro d s s' hs hs'
  rw [((hfills _ _).mp hs).2.2, ((hfills _ _).mp hs').2.2]

theorem Free.not_gathers (hfree : Free bound x) (haxes : bound.walkAxes = axis :: axes)
    {iBegin iEnd s : Int} (hj : 0 ≤ j ∧ j < bound.elementSize) :
    ¬ Gathers bound.elementSize bound.walkAxes iBegin iEnd 0 0 (x * bound.elementSize + j) s := by
  rintro ⟨index, j', hvalid, -, -, hj', hjlt', hd, -⟩
  have hhead : 0 ≤ index.headI ∧ index.headI < axis.extent := (haxes ▸ hvalid).head
  have hgathers : Gathers bound.elementSize (axis :: axes) 0 axis.extent 0 0
      (x * bound.elementSize + j) ((0 + srcOffset (axis :: axes) index) * bound.elementSize + j') :=
    ⟨index, j', haxes ▸ hvalid, hhead.1, hhead.2, hj', hjlt', haxes ▸ hd, rfl⟩
  obtain ⟨cell, hcell, k, hk, hklt, hdk, -⟩ := gathers_iff_visits.mp hgathers
  exact hfree cell (haxes ▸ hcell) (element_inj hj ⟨hk, hklt⟩ hdk).1.symm

/-- The byte of a free cell after the fill and a gather of some rows. -/
theorem runCopies_of_free (hregions : bound.padRegions ≠ []) {fills : List ByteCopy}
    (hfills : ∀ d s, Moves fills d s ↔
      bound.padRegions ≠ [] ∧ Fills bound.elementSize bound.totalBytes d s)
    (hx : 0 ≤ x) (hlt : x * bound.elementSize + j < bound.totalBytes)
    (hj : 0 ≤ j ∧ j < bound.elementSize)
    (hnot : ∀ s, ¬ Moves copies (x * bound.elementSize + j) s) :
    runCopies source copies (runCopies (pattern bound.fillBits) fills memory)
      (x * bound.elementSize + j) = pattern bound.fillBits j := by
  have hmod : (x * bound.elementSize + j) % bound.elementSize = j := by
    rw [add_comm, Int.add_mul_emod_self_right, Int.emod_eq_of_lt hj.1 hj.2]
  have hnonneg : 0 ≤ x * bound.elementSize := mul_nonneg hx (Int.natCast_nonneg _)
  have hin : Moves fills (x * bound.elementSize + j) j :=
    (hfills _ _).mpr ⟨hregions, ⟨by omega, hlt⟩, hmod.symm⟩
  rw [runCopies_of_not_moves hnot, runCopies_of_moves (functional_fills hfills) hin]

theorem executeH2D_of_free (h : bound.Laid) (hregions : bound.padRegions ≠ [])
    (hrun : (executeH2D bound source memory : Outcome ε _) = .ok result) (hx : 0 ≤ x)
    (hfree : Free bound x) (hlt : x * bound.elementSize + j < bound.totalBytes)
    (hj : 0 ≤ j ∧ j < bound.elementSize) :
    result (x * bound.elementSize + j) = pattern bound.fillBits j := by
  obtain ⟨fills, copies, hall, hfills, hcopies⟩ := h.executeH2D_eq_ok hrun
  cases (hall source memory).symm.trans hrun
  refine runCopies_of_free hregions hfills hx hlt hj fun s hs => ?_
  obtain ⟨cell, hcell, k, hk, hklt, hd, -⟩ := (hcopies _ _).mp hs
  exact hfree cell hcell (element_inj hj ⟨hk, hklt⟩ hd).1.symm

theorem executeH2DThreaded_of_free (h : bound.Laid) (hregions : bound.padRegions ≠ [])
    (hparts : ∀ outer, bound.extents[0]? = some outer → Partition 0 parts outer)
    (hrun : (executeH2DThreaded bound parts source memory : Outcome ε _) = .ok result)
    (hx : 0 ≤ x) (hfree : Free bound x) (hlt : x * bound.elementSize + j < bound.totalBytes)
    (hj : 0 ≤ j ∧ j < bound.elementSize) :
    result (x * bound.elementSize + j) = pattern bound.fillBits j := by
  cases haxes : bound.walkAxes with
  | nil => exact absurd haxes h.rank
  | cons axis axes =>
      have hextent := (h.axes axis (by rw [haxes]; simp)).1
      simp only [executeH2DThreaded, bind_ok_iff, fetch_eq_ok, pure_eq, Outcome.ok.injEq] at hrun
      obtain ⟨outer, houter, fill, hfill, _, -, _, -, _, -, copies, hcopies, rfl⟩ := hrun
      obtain ⟨hbits, hfills⟩ := h.fillDst_eq_ok hfill
      have hdivided := hparts outer houter
      rw [h.extents, haxes] at houter
      cases houter
      have hrows : ∃ rows, Partition 0 rows axis.extent ∧
          (gatherParts bound rows : Outcome ε _) = .ok copies := by
        split at hcopies
        · exact ⟨_, hdivided, hcopies⟩
        · exact ⟨_, partition_single (by omega), hcopies⟩
      obtain ⟨rows, hpartition, hgather⟩ := hrows
      rw [hbits]
      refine runCopies_of_free hregions hfills hx hlt hj fun s hs => ?_
      rw [moves_gatherParts h.size (fun a ha => (h.axes a ha).1) haxes (le_refl 0) hpartition
        (le_refl _) hgather] at hs
      exact hfree.not_gathers haxes hj hs

/-- A cell in a chunk's window holds the pattern when its slot is submitted. -/
theorem staged_of_free (h : bound.Laid) (haxes : bound.walkAxes = axis :: axes)
    (hregions : bound.padRegions ≠ []) (hfree : Free bound x)
    (hj : 0 ≤ j ∧ j < bound.elementSize) {chunk : Chunk} (hplaced : chunk.Placed bound axis.extent)
    (hparts : chunk.validBegin < chunk.validEnd →
      Partition chunk.validBegin parts chunk.validEnd)
    (hholds : chunk.Holds (x * bound.elementSize + j))
    (hrun : (stageChunk bound chunk parts source slot : Outcome ε _) = .ok staged) :
    staged (x * bound.elementSize + j - chunk.byteOffset) = pattern bound.fillBits j := by
  have hes : (0 : Int) < bound.elementSize := by exact_mod_cast h.size
  obtain ⟨first, hfirst⟩ := hplaced.aligned
  obtain ⟨count, hcount⟩ := hplaced.whole
  simp only [stageChunk, bind_ok_iff, pure_eq, Outcome.ok.injEq] at hrun
  obtain ⟨fill, hfill, copies, hcopies, rfl⟩ := hrun
  rw [hcount] at hfill
  obtain ⟨hbits, hfills⟩ := fillStagingWindow_eq_ok h.size hfill
  -- the gather of the chunk leaves the byte alone
  have hnot : ∀ s, ¬ Moves copies (x * bound.elementSize + j - chunk.byteOffset) s := by
    intro s
    unfold chunkCopies at hcopies
    split at hcopies
    · rename_i hlt
      simp only [bind_ok_iff, pure_eq, Outcome.ok.injEq] at hcopies
      obtain ⟨base, hbase, gathered, hgathered, rfl⟩ := hcopies
      rw [hplaced.base ε base hbase, moves_rebase, sub_add_cancel,
        moves_gatherParts h.size (fun a ha => (h.axes a ha).1) haxes hplaced.valid.1
          (hparts hlt) hplaced.valid.2.2 hgathered]
      exact hfree.not_gathers haxes hj
    · cases hcopies
      exact moves_nil
  have hbyte : x * bound.elementSize + j - chunk.byteOffset =
      j + (x - first) * bound.elementSize := by
    rw [hfirst]
    ring
  have hmod : (x * bound.elementSize + j - chunk.byteOffset) % bound.elementSize = j := by
    rw [hbyte, Int.add_mul_emod_self_right, Int.emod_eq_of_lt hj.1 hj.2]
  have hin : Moves fill.2 (x * bound.elementSize + j - chunk.byteOffset) j := by
    refine (hfills _ _).mpr ⟨hregions, ⟨by have := hholds.1; omega, ?_⟩, hmod.symm⟩
    rw [← hcount]
    have := hholds.2
    omega
  rw [runCopies_of_not_moves hnot, runCopies_of_moves (functional_fills hfills) hin, hbits]

/-- The byte of a window comes from the chunks that hold it. -/
theorem uploadChunks_eq {serialized : Bool} {staging : Staging} {chunks : List Chunk} {d : Int}
    {value : UInt8}
    (hrun : (uploadChunks bound serialized staging source chunks memory : Outcome ε _) =
      .ok result)
    (hstaged : ∀ chunk ∈ chunks, chunk.Holds d → ∀ staged,
      (stageChunk bound chunk (staging.dispatch serialized chunk) source (staging.slot chunk) :
        Outcome ε _) = .ok staged → staged (d - chunk.byteOffset) = value)
    (hsome : (∃ chunk ∈ chunks, chunk.Holds d) ∨ memory d = value) : result d = value := by
  induction chunks generalizing memory with
  | nil =>
      cases hrun
      simpa using hsome
  | cons chunk rest ih =>
      simp only [uploadChunks, bind_ok_iff] at hrun
      obtain ⟨staged, hstage, hrest⟩ := hrun
      rw [List.forall_mem_cons] at hstaged
      refine ih hrest hstaged.2 ?_
      by_cases hholds : chunk.Holds d
      · right
        have hvalue := hstaged.1 hholds staged hstage
        rw [← hvalue]
        unfold ByteCopy.run Chunk.upload
        rw [if_pos ⟨hholds.1, hholds.2⟩, zero_add]
      · rcases hsome with ⟨other, hother, hin⟩ | hmemory
        · rcases List.mem_cons.mp hother with rfl | htail
          · exact absurd hin hholds
          · exact .inl ⟨other, htail, hin⟩
        · right
          unfold ByteCopy.run Chunk.upload
          rw [if_neg fun hin => hholds ⟨hin.1, hin.2⟩, hmemory]

theorem partition_dispatch {staging : Staging} (hdivides : staging.Divides) (serialized : Bool)
    {chunk : Chunk} (hlt : chunk.validBegin < chunk.validEnd) :
    Partition chunk.validBegin (staging.dispatch serialized chunk) chunk.validEnd := by
  unfold Staging.dispatch
  split
  · exact partition_single hlt
  · exact hdivides chunk hlt

/-- A pipelined run leaves the pattern in every cell that nothing is gathered into. -/
theorem executeH2DPipelined_of_free (h : bound.Laid) (hregions : bound.padRegions ≠ [])
    {nBuffers : Int} {chunkSizeOverride : Nat} {staging : Staging} (hdivides : staging.Divides)
    (hrun : executeH2DPipelined bound nBuffers chunkSizeOverride staging source memory =
      .ok result) {coords : List Int} (hbox : Strides.InBox bound.targetAxes coords)
    (hx : Strides.offset bound.targetAxes coords = x) (hfree : Free bound x)
    (hlt : x * bound.elementSize + j < bound.totalBytes) (hj : 0 ≤ j ∧ j < bound.elementSize) :
    result (x * bound.elementSize + j) = pattern bound.fillBits j := by
  cases haxes : bound.walkAxes with
  | nil => exact absurd haxes h.rank
  | cons axis axes =>
      simp only [executeH2DPipelined, executeH2DPrepared, bind_ok_iff, exists_unit] at hrun
      obtain ⟨schedule, hschedule, -, -, _, -, -, hupload⟩ := hrun
      obtain ⟨hplaced, hcovers⟩ := h.planChunks_eq_ok haxes hschedule
      obtain ⟨chunk, hchunk, hholds⟩ := hcovers coords j hbox hj.1 hj.2 (by rwa [hx])
      rw [hx] at hholds
      exact uploadChunks_eq hupload (fun other hother hin staged => h.staged_of_free haxes hregions
        hfree hj (hplaced other hother) (partition_dispatch hdivides _) hin)
        (.inl ⟨chunk, hchunk, hholds⟩)

/-- So does a relocation of host buffers, whichever executor it takes. -/
theorem relocateHost_of_free (h : bound.Laid) (hregions : bound.padRegions ≠ [])
    {buffers : HostBuffers} {staging : Staging} (hdivides : staging.Divides)
    (hparts : ∀ outer, bound.extents[0]? = some outer → Partition 0 parts outer)
    (hrun : relocateHost bound buffers parts staging source memory = .ok result)
    {coords : List Int} (hbox : Strides.InBox bound.targetAxes coords)
    (hx : Strides.offset bound.targetAxes coords = x) (hfree : Free bound x)
    (hlt : x * bound.elementSize + j < bound.totalBytes) (hj : 0 ≤ j ∧ j < bound.elementSize) :
    result (x * bound.elementSize + j) = pattern bound.fillBits j := by
  have hx0 : 0 ≤ x := hx ▸ Strides.offset_nonneg h.forward hbox
  simp only [relocateHost, bind_ok_iff, exists_unit] at hrun
  obtain ⟨-, _, -, -, -, -, hstrategy⟩ := hrun
  split at hstrategy
  · exact h.executeH2DThreaded_of_free hregions hparts hstrategy hx0 hfree hlt hj
  · rw [mapError_eq_ok] at hstrategy
    exact h.executeH2DPipelined_of_free hregions hdivides hstrategy hbox hx hfree hlt hj
  · exact h.executeH2D_of_free hregions hstrategy hx0 hfree hlt hj

end BoundPlan.Laid

end SymReloc
