import SymReloc.Runtime.GatherBarrier
import SymReloc.Runtime.Transfer
import SymReloc.Runtime.TypedExecute

/-!
# Prefolding

`prefoldSpecFor` says which typed programs the prefolder implements, and `prefoldArtifact` makes
the quantized image of a bound layout once, over the rows of a gather pool.  The kernels are
traces here: for every element where it is read, where it is stored and the scale that is
applied; `QuantCell.write` is the element's value.
-/

namespace SymReloc.Prefold

open Outcome Writes Quant

/-! ### Quantize kernels -/

/-- One element of a quantize kernel. -/
structure QuantCell where
  src : Int
  dst : Int
  invScale : Nat
deriving DecidableEq, Repr

/-- `quantOne` of an element, as a byte. -/
def QuantCell.write (source : Memory Nat) (cell : QuantCell) : CellWrite :=
  ⟨cell.dst, (quantizeOneF32S8 (source cell.src % 2 ^ 32) cell.invScale % 2 ^ 8).toNat⟩

/-- `quantizePackScalar`. -/
def quantizePackScalar (src dst n : Int) (invScale : Nat) : List QuantCell :=
  (intRange 0 n).map fun i => ⟨src + i, dst + i, invScale⟩

/-- `quantRunScalar`: read with a stride, stored contiguously. -/
def quantRunScalar (src srcStride dst n : Int) (invScale : Nat) : List QuantCell :=
  if srcStride = 1 then quantizePackScalar src dst n invScale
  else (intRange 0 n).map fun i => ⟨src + i * srcStride, dst + i, invScale⟩

/-- `quantWalk`: only the top axis is ranged, and the scale is picked there. -/
def quantWalk (invScales : List Nat) :
    List WalkAxis → Nat → Int → Int → Int → Int → Nat → Outcome ExecutionError (List QuantCell)
  | [], _, _, _, _, _, _ => .ok []
  | [axis], _, iBegin, iEnd, srcOff, dstOff, invScale =>
      .ok (quantRunScalar (srcOff + iBegin * axis.srcStride) axis.srcStride (dstOff + iBegin)
        (iEnd - iBegin) invScale)
  | axis :: next :: rest, depth, iBegin, iEnd, srcOff, dstOff, invScale => do
      let runs ← mapEach (intRange iBegin iEnd) fun i => do
        let scale ← if depth = 0 then fetchAt invScales i else pure invScale
        quantWalk invScales (next :: rest) (depth + 1) 0 next.extent
          (srcOff + i * axis.srcStride) (dstOff + i * axis.dstStride) scale
      pure runs.flatten

/-- `gatherQuantizeF32S8`. -/
def gatherQuantizeF32S8 (bound : BoundPlan) (invScales : List Nat) (outerBegin outerEnd : Int) :
    Outcome ExecutionError (List QuantCell) :=
  quantWalk invScales bound.walkAxes 0 outerBegin outerEnd 0 0 0

/-- `quantizePackF32S8`, over the channels `[first, last)` of all. -/
def quantizePackF32S8 (invScales : List Nat) (channelSize first last : Int) :
    Outcome ExecutionError (List QuantCell) := do
  let runs ← mapEach (intRange first last) fun c => do
    let scale ← fetchAt invScales c
    pure (quantizePackScalar (c * channelSize) (c * channelSize) channelSize scale)
  pure runs.flatten

/-! ### Rows of a pool -/

/-- `minPerWorker`: the byte floor of a worker, in units. -/
def minPerWorker (bytesPerUnit : Int) : Int := max 1 (2 ^ 20 / max 1 bytesPerUnit)

/-- The ranges on which a returned call of `parallelFor` ran its function, in a pool of so many
    threads. -/
def ParallelFor (threads : Nat) (first last minPerWorker : Int) (ranges : List (Int × Int)) :
    Prop :=
  ∃ (pool : GatherPool.State) (c : Nat) (call : GatherPool.Call) (failure : Option Nat),
    (GatherPool.system threads).Reachable pool ∧ pool.calls[c]? = some call ∧
    call.phase = .returned failure ∧
    (call.first, call.last, call.minPerWorker) = (first, last, minPerWorker) ∧
    ranges = call.ended.map GatherPool.Invocation.range

/-- The elements of a row. -/
def rowElements (bound : BoundPlan) : Int := bound.extents.tail.prod

/-- The reach of a row in the destination. -/
def innerSpan (bound : BoundPlan) : Int :=
  ((bound.extents.tail.zip bound.dstStrides.tail).map fun axis => (axis.1 - 1) * axis.2).sum

/-- The kernels that run, each a range of rows. -/
inductive Kernel where
  | gather (first last : Int)
  | pack (first last : Int)
deriving DecidableEq, Repr

inductive OutputSpec where
  | s8GatherQuant
  | s8QuantPack
deriving DecidableEq, Repr

/-- `gatherQuantizeF32S8Parallel` and `quantizePackF32S8Parallel`: rows that may share bytes are
    left to one worker. -/
def Launches (bound : BoundPlan) (threads : Nat) : OutputSpec → List Kernel → Prop
  | .s8GatherQuant, kernels =>
      ∃ outer ∈ bound.extents.head?, ∃ stride ∈ bound.dstStrides.head?,
        if stride < innerSpan bound + 1 then kernels = [.gather 0 outer]
        else ∃ ranges, ParallelFor threads 0 outer (minPerWorker (rowElements bound * 4)) ranges ∧
          kernels = ranges.map fun range => .gather range.1 range.2
  | .s8QuantPack, kernels =>
      ∃ outer ∈ bound.extents.head?, ∃ ranges,
        ParallelFor threads 0 outer (minPerWorker (rowElements bound * 4)) ranges ∧
          kernels = ranges.map fun range => .pack range.1 range.2

def Kernel.run (bound : BoundPlan) (invScales : List Nat) :
    Kernel → Outcome ExecutionError (List QuantCell)
  | .gather first last => gatherQuantizeF32S8 bound invScales first last
  | .pack first last => quantizePackF32S8 invScales (rowElements bound) first last

/-! ### The artifact -/

/-- The elements of a packed destination: from the innermost axis outwards, every stride is the
    product of the extents below it. -/
def packedElements : List (Int × Int) → Option Int
  | [] => some 1
  | (extent, stride) :: rest => do
      let below ← packedElements rest
      if stride = below then some (below * extent) else none

/-- What `prefoldArtifact` checks of a plan; the result is the bytes of the image. -/
def imageBytes (bound : BoundPlan) (spec : OutputSpec) : Option Int := do
  guard (bound.elementSize = 4 ∧ bound.padRegions = [] ∧ 2 ≤ bound.extents.length ∧
    bound.dstStrides.getLast? = some 1)
  let packed ← packedElements (bound.extents.zip bound.dstStrides)
  guard (packed = bound.totalBytes.tdiv bound.elementSize)
  guard (spec = .s8QuantPack → bound.srcStrides = bound.dstStrides)
  some packed

/-- A valid artifact: its bytes, and the elements of which they were made. -/
structure PrefoldArtifact where
  bytes : Int
  cells : List QuantCell
  image : Memory Nat

/-- `prefoldArtifact` over a pool of so many threads, from memory of the backend, none where the
    backend has none left.  The workers' writes come in any order; a scale that is not there has
    no meaning. -/
def Prefolds (bound : BoundPlan) (source : Memory Nat) (spec : OutputSpec) (invScales : List Nat)
    (threads : Nat) (staging : Option (Memory Nat))
    (result : Outcome ExecutionError (Option PrefoldArtifact)) : Prop :=
  match imageBytes bound spec, staging with
  | some bytes, some memory =>
      ∃ kernels, Launches bound threads spec kernels ∧
        match mapEach kernels (Kernel.run bound invScales) with
        | .ok traces => ∃ history,
            Interleaves (traces.map (List.map (QuantCell.write source))) history ∧
            result = .ok (some ⟨bytes, traces.flatten, run (history.map Prod.snd) memory⟩)
        | .error reason => result = .error reason
        | .fault kind => result = .fault kind
  | _, _ => result = .ok none

/-! ### Eligible programs -/

structure PrefoldSpec where
  spec : OutputSpec
  invScales : List Nat
deriving DecidableEq, Repr

def unavailable (why : String) : TransferError := ⟨"prefold_unavailable", why⟩

/-- The one stage of a program that is a quantize. -/
def onlyQuantize (program : Program) : Outcome TransferError StageArithmetic :=
  match program.stages with
  | [stage] =>
      if stage.transform = .quantize then .ok stage
      else .error (unavailable "the prefolder implements exactly one symmetric_rne quantize")
  | _ => .error (unavailable "the prefolder implements exactly one symmetric_rne quantize")

/-- `prefoldSpecFor`. -/
def prefoldSpecFor (plan : TypedBoundPlan) : Outcome TransferError PrefoldSpec := do
  let program ← (prepareProgram plan).mapError fun error => unavailable error.message
  let layout := program.plan.layout
  let stage ← onlyQuantize program
  require (layout.padRegions = []) (unavailable "layout has pads")
  require (2 ≤ layout.extents.length)
    (unavailable "the prefolder needs a distinct outer channel axis (rank >= 2)")
  require ((packedElements (layout.extents.zip layout.dstStrides)).isSome)
    (unavailable "destination is not packed row-major")
  let outer ← fetch layout.extents 0
  let spec := if layout.srcStrides = layout.dstStrides then .s8QuantPack else .s8GatherQuant
  if stage.perChannel then do
    require (stage.channelIsDim = true ∧ stage.channelDim = 0 ∧
        layout.extents.head? = program.plan.resultExtents.head? ∧
        layout.dstStrides.head? = program.resultStrides.head?)
      (unavailable "channel axis is not the coalesced outer axis")
    pure ⟨spec, stage.invScale⟩
  else do
    let invScale ← fetch stage.invScale 0
    pure ⟨spec, List.replicate outer.toNat invScale⟩

end SymReloc.Prefold
