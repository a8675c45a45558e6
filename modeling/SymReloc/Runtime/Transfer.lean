import Mathlib.Data.List.Sort
import SymReloc.Runtime.ChunkSchedule

/-!
# Transfer requests

The validator of a forward transfer: the two declared buffer views, the bound plan
against each of them, and the schedule and staging a request needs.  Products and
sums whose result the code tests are checked operations; the others fault when
they do not fit.
-/

namespace SymReloc

open Outcome

/-! ### Requests -/

inductive MemoryKind where
  | host
  | cuda
deriving DecidableEq, Repr

inductive TransferDirection where
  | hostToDevice
  | deviceToHost
deriving DecidableEq, Repr

/-- A framework buffer as the caller declares it. -/
structure BufferView where
  base : Nat
  capacityBytes : Nat
  offsetBytes : Nat
  extents : List Int
  strides : List Int
  elementSize : Nat
  kind : MemoryKind
  device : Int
deriving DecidableEq, Repr

structure TransferError where
  code : String
  message : String
deriving DecidableEq, Repr

structure TransferRequest where
  bound : BoundPlan
  source : BufferView
  destination : BufferView
  direction : TransferDirection
  consumed : Bool
deriving DecidableEq, Repr

/-- The options that describe a transfer; `gather` is the thread count of the
    caller's pool. -/
structure TransferOptions where
  nBuffers : Int
  chunkSizeOverride : Nat
  gatherThreads : Nat
  gather : Option Nat
deriving DecidableEq, Repr

structure TransferRequirements where
  schedule : Option ChunkSchedule
  sourceBytes : Nat
  slotBytes : Nat
  stagingBytes : Nat
  activeSlots : Nat
  gatherThreads : Nat
deriving DecidableEq, Repr

def fail (code message : String) : TransferError := { code, message }

/-! ### Views -/

/-- The axes that count, with their strides. -/
def viewAxes (what : String) : List (Int × Int) → Outcome TransferError (List Strides.Axis)
  | [] => .ok []
  | (extent, stride) :: rest => do
      require (1 ≤ extent) (fail "invalid_view" (what ++ " has an extent below one"))
      require (0 ≤ stride) (fail "unsupported_layout" (what ++ " has a negative stride"))
      if extent = 1 then viewAxes what rest
      else do
        require (stride ≠ 0)
          (fail "unsupported_layout" (what ++ " broadcasts a stride of zero"))
        let axes ← viewAxes what rest
        pure ({ extent, stride } :: axes)

/-- The order of `std::pair<int64_t, int64_t>` on (stride, extent). -/
def axisLE (a b : Strides.Axis) : Prop :=
  a.stride < b.stride ∨ (a.stride = b.stride ∧ a.extent ≤ b.extent)

instance : DecidableRel axisLE := fun a b => by unfold axisLE; infer_instance

/-- The largest offset of sorted axes; each stride must pass what came before. -/
def spanOf (what : String) : List Strides.Axis → Int → Outcome TransferError Int
  | [], span => .ok span
  | axis :: rest, span => do
      require (span < axis.stride)
        (fail "unsupported_layout" (what ++ " has overlapping strides"))
      let last ← sub64 axis.extent 1
      let reach ← checkedOr (last * axis.stride)
        (fail "integer_overflow" (what ++ " span overflows"))
      let span ← checkedOr (span + reach) (fail "integer_overflow" (what ++ " span overflows"))
      spanOf what rest span

def viewSpanBytes (view : BufferView) (what : String) : Outcome TransferError Nat := do
  require (view.base ≠ 0) (fail "invalid_view" (what ++ " base pointer is null"))
  require (view.elementSize ≠ 0) (fail "invalid_view" (what ++ " element size is zero"))
  require (view.extents ≠ []) (fail "invalid_view" (what ++ " has rank zero"))
  require (view.extents.length = view.strides.length)
    (fail "invalid_view" (what ++ " extents/strides rank mismatch"))
  require (¬ (view.kind = .cuda ∧ view.device < 0))
    (fail "invalid_view" (what ++ " CUDA view lacks a device ordinal"))
  require (¬ (view.kind = .host ∧ 0 ≤ view.device))
    (fail "invalid_view" (what ++ " host view declares a CUDA device"))
  let axes ← viewAxes what (view.extents.zip view.strides)
  let span ← spanOf what (axes.insertionSort axisLE) 0
  let elements ← exactSize (toSize span + 1)
  let bytes ← checkedSizeOr (elements * view.elementSize)
    (fail "integer_overflow" (what ++ " byte span overflows"))
  let last ← checkedSizeOr (view.offsetBytes + bytes)
    (fail "integer_overflow" (what ++ " byte span overflows"))
  require (last ≤ view.capacityBytes)
    (fail "insufficient_capacity" (what ++ " needs " ++ toString last ++
      " bytes from its allocation base but only " ++ toString view.capacityBytes ++
      " are declared"))
  pure bytes

/-- The first test of `isDense`.  The stride of an axis of extent one is not read. -/
def BufferView.strideDiffers (view : BufferView) (k : Nat) (expected : Int) :
    Outcome TransferError Bool := do
  let extent ← fetch view.extents k
  if extent = 1 then pure false
  else do
    let stride ← fetch view.strides k
    pure (decide (stride ≠ expected))

/-- `isDense` over the first axes, the innermost of them first. -/
def BufferView.isDenseUpTo (view : BufferView) : Nat → Int → Outcome TransferError Bool
  | 0, _ => pure true
  | k + 1, expected => do
      let differs ← view.strideDiffers k expected
      if differs then pure false
      else do
        let extent ← fetch view.extents k
        match checked64 (expected * extent) with
        | none => pure false
        | some expected => view.isDenseUpTo k expected

def BufferView.isDense (view : BufferView) : Outcome TransferError Bool :=
  view.isDenseUpTo view.extents.length 1

/-! ### The plan against the views -/

/-- The product of extents, none if it overflows or an extent is below one. -/
def elementCount : List Int → Int → Option Int
  | [], count => some count
  | extent :: rest, count =>
      if extent < 1 then none
      else
        match checked64 (count * extent) with
        | none => none
        | some count => elementCount rest count

def elementCountOr (extents : List Int) (overflow : TransferError) : Outcome TransferError Int :=
  match elementCount extents 1 with
  | some count => .ok count
  | none => .error overflow

/-- The reach of the plan on one side. -/
def planReach (negative overflow : TransferError) : List (Int × Int) → Int →
    Outcome TransferError Int
  | [], reach => .ok reach
  | (extent, stride) :: rest, reach => do
      require (0 ≤ stride) negative
      let last ← sub64 extent 1
      let step ← checkedOr (last * stride) overflow
      let reach ← checkedOr (reach + step) overflow
      planReach negative overflow rest reach

def checkPlanAgainstSource (bound : BoundPlan) (source : BufferView) (sourceSpanBytes : Nat) :
    Outcome TransferError Unit := do
  require (bound.extents ≠ [] ∧ bound.extents.length = bound.srcStrides.length ∧
      bound.extents.length = bound.dstStrides.length)
    (fail "plan_mismatch" "bound plan has inconsistent axes")
  require (bound.typed = false)
    (fail "typed_unsupported" ("bound plan is the layout of a typed plan; the layout-only " ++
      "transfer path cannot execute it"))
  require (bound.elementSize ≠ 0 ∧ bound.elementSize = source.elementSize)
    (fail "plan_mismatch" "plan element size differs from the source view")
  let planElements ← elementCountOr bound.extents
    (fail "integer_overflow" "plan element count overflows")
  let viewElements ← elementCountOr source.extents
    (fail "integer_overflow" "source element count overflows")
  require (planElements = viewElements)
    (fail "plan_mismatch" ("plan relocates " ++ toString planElements ++
      " elements but the source view holds " ++ toString viewElements))
  let maxRead ← planReach (fail "plan_mismatch" "plan has a negative source stride")
    (fail "integer_overflow" "plan source reach overflows") (bound.extents.zip bound.srcStrides) 0
  let needed ← checkedSizeOr ((toSize maxRead + 1) * bound.elementSize)
    (fail "integer_overflow" "plan source footprint overflows")
  require (needed ≤ sourceSpanBytes)
    (fail "plan_mismatch" ("plan reads " ++ toString needed ++
      " bytes beyond a source view spanning " ++ toString sourceSpanBytes))

/-- The padded extents, with every sum checked. -/
def checkedPads (length : Nat) (padded : List Int) : List PadRegion →
    Outcome TransferError (List Int)
  | [] => .ok padded
  | region :: rest => do
      require (region.axis < length ∧ 0 ≤ region.lo ∧ 0 ≤ region.hi)
        (fail "plan_mismatch" "bound plan has an invalid pad region")
      let current ← fetch padded region.axis
      let front ← checkedOr (current + region.lo)
        (fail "integer_overflow" "padded extent overflows")
      let widened ← checkedOr (front + region.hi)
        (fail "integer_overflow" "padded extent overflows")
      checkedPads length (padded.set region.axis widened) rest

def checkPlanAgainstDestination (bound : BoundPlan) (destination : BufferView)
    (spanBytes : Nat) : Outcome TransferError Unit := do
  require (bound.elementSize = destination.elementSize)
    (fail "plan_mismatch" "plan element size differs from the destination view")
  let dense ← destination.isDense
  require (dense = true)
    (fail "unsupported_layout" "destination view must be dense row-major")
  require (0 < bound.totalBytes)
    (fail "plan_mismatch" "bound plan has no destination footprint")
  require (spanBytes = toSize bound.totalBytes)
    (fail "plan_mismatch" ("destination view spans " ++ toString spanBytes ++
      " bytes but the plan writes " ++ toString bound.totalBytes))
  let padded ← checkedPads bound.extents.length bound.extents bound.padRegions
  let maxWrite ← planReach (fail "plan_mismatch" "plan has a negative destination stride")
    (fail "integer_overflow" "plan destination reach overflows") (padded.zip bound.dstStrides) 0
  let needed ← checkedSizeOr ((toSize maxWrite + 1) * bound.elementSize)
    (fail "integer_overflow" "plan destination footprint overflows")
  require (needed ≤ toSize bound.totalBytes)
    (fail "plan_mismatch" "plan writes beyond its declared destination footprint")

def checkKinds (source destination : BufferView) (direction : TransferDirection) :
    Outcome TransferError Unit := do
  require (¬ (direction = .hostToDevice ∧ source.kind = .cuda))
    (fail "direction_mismatch" "host-to-device source must be host memory")
  require (¬ (direction = .deviceToHost ∧ destination.kind = .cuda))
    (fail "direction_mismatch" "device-to-host destination must be host memory")

def checkSourceKind (source : BufferView) (direction : TransferDirection) :
    Outcome TransferError Unit :=
  require (¬ (direction = .hostToDevice ∧ source.kind = .cuda))
    (fail "direction_mismatch" "host-to-device source must be host memory")

def validateTransferSource (bound : BoundPlan) (source : BufferView)
    (direction : TransferDirection) : Outcome TransferError Nat := do
  checkSourceKind source direction
  let bytes ← viewSpanBytes source "source"
  checkPlanAgainstSource bound source bytes
  pure bytes

/-- `validateTransfer`: the source span of an accepted request. -/
def validateTransfer (bound : BoundPlan) (source destination : BufferView)
    (direction : TransferDirection) : Outcome TransferError Nat := do
  checkKinds source destination direction
  let sourceSpan ← validateTransferSource bound source direction
  let destinationSpan ← viewSpanBytes destination "destination"
  checkPlanAgainstDestination bound destination destinationSpan
  pure sourceSpan

/-! ### What a request needs -/

/-- The pads of a plan a layout-only executor can run: one for each axis, one fill. -/
def admitPads (bound : BoundPlan) : List Nat → List Int → List PadRegion →
    Outcome TransferError (List Int)
  | _, padded, [] => .ok padded
  | seen, padded, region :: rest => do
      require (¬ (region.axis ∈ seen ∨ 8 < bound.elementSize ∨
          (bound.padRegions.head?.map PadRegion.fillBits) ≠ some region.fillBits))
        (fail "unsupported_layout" "unsupported padding representation")
      let current ← fetch padded region.axis
      let width ← add64 region.lo region.hi
      let widened ← add64 current width
      admitPads bound (region.axis :: seen) (padded.set region.axis widened) rest

/-- The plan numbers the cells of its destination: their bytes are its total, and the
    padded axes span exactly them. -/
def checkPhysical (bound : BoundPlan) (destination : BufferView) (padded : List Int) :
    Outcome TransferError Unit := do
  let physicalElements ← elementCountOr padded
    (fail "integer_overflow" "physical destination size overflows")
  let physicalBytes ← checkedOr (physicalElements * bound.elementSize)
    (fail "integer_overflow" "physical destination size overflows")
  require (physicalBytes = bound.totalBytes)
    (fail "plan_mismatch" "physical destination size differs from plan")
  let span ← viewSpanBytes { destination with extents := padded, strides := bound.dstStrides }
    "plan destination"
  require (span = toSize bound.totalBytes)
    (fail "plan_mismatch" "plan does not cover its physical destination")

/-- Disjoint outer rows must add up to the destination. -/
def checkRows (bound : BoundPlan) (padded : List Int) (rowBytes : Int) :
    Outcome TransferError Unit := do
  let span ← innerSpan padded bound.dstStrides
  let stride ← fetch bound.dstStrides 0
  let next ← add64 span 1
  if next ≤ stride then do
    let outer ← fetch padded 0
    let covered ← checkedOr (outer * rowBytes)
      (fail "integer_overflow" "chunk coverage overflows")
    require (covered = bound.totalBytes)
      (fail "plan_mismatch" "outer-row chunks do not cover destination")
  else .ok ()

/-- The schedule, the slots and their size. -/
def describeStaging (request : TransferRequest) (options : TransferOptions) (padded : List Int)
    (rowBytes : Int) (sourceBytes : Nat) :
    Outcome TransferError (Option ChunkSchedule × Nat × Nat) :=
  match request.direction with
  | .hostToDevice => do
      checkRows request.bound padded rowBytes
      let configured := max 1 options.nBuffers
      let schedule ← planChunks request.bound configured options.chunkSizeOverride
      pure (some schedule, min (toSize configured) schedule.chunks.length, schedule.maxChunkBytes)
  | .deviceToHost => pure (none, 1, sourceBytes)

/-- `describeTransfer`, on a machine with so many hardware threads. -/
def describeTransfer (hardwareThreads : Nat) (request : TransferRequest)
    (options : TransferOptions) : Outcome TransferError TransferRequirements := do
  require (request.consumed = false)
    (fail "already_executed" "transfer request was already executed")
  let sourceBytes ← validateTransfer request.bound request.source request.destination
    request.direction
  let requested := if options.gather.isSome then 1 else options.gatherThreads
  let gatherThreads := if requested = 0 then max 1 hardwareThreads else requested
  require (gatherThreads ≤ 2 ^ 31 - 1)
    (fail "invalid_options" "gather thread count exceeds native range")
  let stride ← fetch request.bound.dstStrides 0
  let rowBytes ← checkedOr (stride * request.bound.elementSize)
    (fail "integer_overflow" "destination row size overflows")
  let padded ← admitPads request.bound [] request.bound.extents request.bound.padRegions
  checkPhysical request.bound request.destination padded
  let (schedule, activeSlots, slotBytes) ←
    describeStaging request options padded rowBytes sourceBytes
  require (1 ≤ activeSlots ∧ slotBytes ≠ 0)
    (fail "integer_overflow" "staging capacity overflows")
  let stagingBytes ← checkedSizeOr (slotBytes * activeSlots)
    (fail "integer_overflow" "staging capacity overflows")
  pure { schedule, sourceBytes, slotBytes, stagingBytes, activeSlots, gatherThreads }

end SymReloc
