import SymReloc.Runtime.Execute
import SymReloc.Runtime.TypedProgram
import SymReloc.Writes

/-!
# The walker and the kernels of typed programs

A typed program moves elements: each is read at its source offset, passed through a
range of stages and stored at its padded destination offset.  `element` does this for
one element; the kernels do it for runs of elements, in typed buffers and tiles, for
layouts and channel maps that `hostKernel` picks by their structure.

Offsets count elements, and their arithmetic is exact.
-/

namespace SymReloc

open Outcome Quant Writes

abbrev CellWrite := Write Nat

/-! ### Elements -/

/-- A walk's shared state: the stage range, the source, the two element widths and
    the element offset of the destination's first cell. -/
structure WalkState where
  program : Program
  fromStage : Nat
  toStage : Nat
  source : Memory Nat
  widthFrom : Nat
  widthTo : Nat
  origin : Int

/-- The stages of a range with their numbers. -/
def Program.range (program : Program) (fromStage toStage : Nat) : List (StageArithmetic × Nat) :=
  (program.stages.zipIdx.take toStage).drop fromStage

namespace WalkState

variable (state : WalkState)

def range : List (StageArithmetic × Nat) := state.program.range state.fromStage state.toStage

def loadBits (offset : Int) : Nat := state.source offset % 2 ^ (8 * state.widthFrom)

def storeBits (offset : Int) (bits : Nat) : CellWrite :=
  ⟨offset - state.origin, bits % 2 ^ (8 * state.widthTo)⟩

end WalkState

/-- The result coordinates of a destination offset. -/
def coordsOf : List Int → Int → List Int
  | [], _ => []
  | stride :: strides, rest =>
      rest.tdiv stride :: coordsOf strides (rest - rest.tdiv stride * stride)

/-- The channel a per-channel stage has at a coordinate, before its range is checked. -/
def selectChannel (program : Program) (coords : List Int) (stage : StageArithmetic) (k : Nat) :
    Outcome ExecutionError Int :=
  if stage.channelIsDim then fetch coords stage.channelDim
  else do
    let bound ← fetch program.plan.stages k
    (evalChannel (bound.channel.getD []) program.plan.symbols coords).mapError fun why =>
      stageFailure k .channelEvaluationFailed why.message

def channelAt (program : Program) (coords : List Int) (stage : StageArithmetic) (k : Nat) :
    Outcome ExecutionError Int :=
  if stage.perChannel then do
    let channel ← selectChannel program coords stage k
    require (0 ≤ channel ∧ channel < stage.channelLength) (stageFailure k .channelOutOfRange
      ("selected channel " ++ toString channel ++ " of " ++ toString stage.channelLength))
    pure channel
  else .ok 0

/-- One value through a range of stages at a coordinate. -/
def applyRange (program : Program) (coords : List Int) :
    List (StageArithmetic × Nat) → Nat → Outcome ExecutionError Nat
  | [], bits => .ok bits
  | (stage, k) :: rest, bits => do
      let channel ← channelAt program coords stage k
      applyRange program coords rest (applyStage stage bits channel)

/-- `element`: one element from its source offset to its destination offset. -/
def element (state : WalkState) (srcOff dstOff : Int) : Outcome ExecutionError CellWrite := do
  let bits ← applyRange state.program (coordsOf state.program.resultStrides dstOff) state.range
    (state.loadBits srcOff)
  pure (state.storeBits dstOff bits)

/-! ### Buffered runs -/

def kTypedTile : Int := 32
def kTypedRun : Int := 256

/-- The typed arrays of a buffer. -/
inductive BufferArray where
  | f32
  | f16
  | s8
deriving DecidableEq, Repr

/-- The array that holds the values of a type. -/
def bufferArray (type : ElementType) : BufferArray :=
  if type.kind = .integer then .s8 else if type.bitwidth = 16 then .f16 else .f32

def BufferArray.width : BufferArray → Nat
  | .f32 => 4
  | .f16 => 2
  | .s8 => 1

/-- A buffer with the one array that was written. -/
structure Buffer where
  array : BufferArray
  values : List Nat

/-- The values of an array; the others are not initialised. -/
def Buffer.read (buffer : Buffer) (array : BufferArray) : Outcome ExecutionError (List Nat) :=
  if buffer.array = array then .ok buffer.values else .fault .outOfBounds

/-- An entry of a parameter list, by an index that is used as a `size_t`. -/
def fetchAt {α : Type} (values : List α) (index : Int) : Outcome ExecutionError α :=
  if index < 0 then .fault .outOfBounds else fetch values index.toNat

/-- `stage`: one stage over a buffer. -/
def kernelStage (stage : StageArithmetic) (channel : Int) (buffer : Buffer) :
    Outcome ExecutionError Buffer :=
  match stage.transform with
  | .cast =>
      if stage.input.bitwidth = 32 then do
        let values ← buffer.read .f32
        pure ⟨.f16, values.map fun bits =>
          if stage.output.kind = .bfloat then narrowF32BF16 (bits % 2 ^ 32)
          else narrowF32F16 (bits % 2 ^ 32)⟩
      else do
        let values ← buffer.read .f16
        pure ⟨.f32, values.map fun bits =>
          if stage.input.kind = .bfloat then widenBF16F32 (bits % 2 ^ 16)
          else widenF16F32 (bits % 2 ^ 16)⟩
  | .quantize => do
      let values ← buffer.read .f32
      let invScale ← fetchAt stage.invScale channel
      pure ⟨.s8, values.map fun bits => (quantizeOneF32S8 (bits % 2 ^ 32) invScale % 2 ^ 8).toNat⟩
  | .dequantize => do
      let values ← buffer.read .s8
      let scale ← fetchAt stage.scale channel
      let zeroPoint ← fetchAt stage.zeroPoint (if stage.zeroPoint.length = 1 then 0 else channel)
      pure ⟨.f32, values.map fun bits =>
        Ieee.Format.binary32.mul (Ieee.Format.binary32.ofInt (signExtendBits bits 8 - zeroPoint))
          scale⟩

namespace Program

variable (program : Program)

/-- The stride and the extent of the result coordinate a channel is. -/
def channelStride (stage : StageArithmetic) : Int := program.resultStrides.getD stage.channelDim 0

def channelExtent (stage : StageArithmetic) : Int :=
  program.plan.resultExtents.getD stage.channelDim 0

/-- The channel of a stage at a destination offset, as the kernels compute it. -/
def kernelChannel (stage : StageArithmetic) (offset : Int) : Int :=
  if stage.perChannel then
    (offset.tdiv (program.channelStride stage)).tmod (program.channelExtent stage)
  else 0

/-- The elements from an offset on that one buffer takes: no channel changes in it. -/
def pieceLength (range : List (StageArithmetic × Nat)) (offset left : Int) : Int :=
  range.foldl (fun n entry =>
    if entry.1.perChannel then
      min n (program.channelStride entry.1 - offset.tmod (program.channelStride entry.1))
    else n) (min kTypedRun left)

/-- A buffer through a range of stages. -/
def bufferStages (offset : Int) : List (StageArithmetic × Nat) → Buffer →
    Outcome ExecutionError Buffer
  | [], buffer => .ok buffer
  | (stage, _) :: rest, buffer => do
      let buffer ← kernelStage stage (program.kernelChannel stage offset) buffer
      bufferStages offset rest buffer

/-- `simpleChannels`: every channel is a result coordinate that stays the same over an
    inner span; a dimension that `prepareProgram` found is one of the result. -/
def simpleChannels (fromStage toStage : Nat) (innerSpan : Int) : Prop :=
  ∀ entry ∈ program.range fromStage toStage, entry.1.perChannel →
    entry.1.channelIsDim ∧ innerSpan ≤ program.channelStride entry.1 ∧
      program.channelExtent entry.1 ≤ entry.1.channelLength

instance (fromStage toStage : Nat) (innerSpan : Int) :
    Decidable (program.simpleChannels fromStage toStage innerSpan) :=
  inferInstanceAs (Decidable (∀ entry ∈ _, _ → _))

end Program

namespace WalkState

variable (state : WalkState)

/-- One buffer of a run: `n` elements of the input from `start` on. -/
def piece (input : Int → Nat) (offset start n : Int) : Outcome ExecutionError (List CellWrite) := do
  let inType ← state.program.typeAt state.fromStage
  let outType ← state.program.typeAt state.toStage
  if (bufferArray inType).width = state.widthFrom ∧ (bufferArray outType).width = state.widthTo then
    let buffer : Buffer := ⟨bufferArray inType, (intRange 0 n).map fun i => input (start + i)⟩
    let buffer ← state.program.bufferStages (offset + start) state.range buffer
    let values ← buffer.read (bufferArray outType)
    pure ((intRange 0 n).zipWith (fun i bits => state.storeBits (offset + start + i) bits) values)
  else .fault .outOfBounds

def pieces (input : Int → Nat) (count offset : Int) :
    Nat → Int → Outcome ExecutionError (List CellWrite)
  | 0, _ => .ok []
  | fuel + 1, start =>
      if start < count then do
        let n := state.program.pieceLength state.range (offset + start) (count - start)
        let writes ← state.piece input offset start n
        let rest ← pieces input count offset fuel (start + n)
        pure (writes ++ rest)
      else .ok []

/-- `stages`: a contiguous run to the destination offset, buffer by buffer; every
    buffer takes an element. -/
def stages (input : Int → Nat) (count offset : Int) : Outcome ExecutionError (List CellWrite) :=
  if state.fromStage = state.toStage then
    .ok ((intRange 0 count).map fun i => state.storeBits (offset + i) (input i))
  else state.pieces input count offset count.toNat 0

/-- `convertF32F16`: the direct conversion of a contiguous run. -/
def convertRun (input : Int → Nat) (count offset : Int) : List CellWrite :=
  (intRange 0 count).map fun i => state.storeBits (offset + i) (narrowF32F16 (input i))

/-! ### Transposes and strided runs -/

/-- The tiles of a range: their first index and their length. -/
def tiles (first last : Int) : List (Int × Int) :=
  (List.range (((last - first).toNat + 31) / 32)).map fun k : Nat =>
    (first + kTypedTile * k, min kTypedTile (last - (first + kTypedTile * k)))

/-- One row of a tile that was read column by column. -/
def tileRow (outer inner : WalkAxis) (r c cols row : Int) :
    Outcome ExecutionError (List CellWrite) :=
  if state.widthFrom = 4 ∨ state.widthFrom = 2 ∨ state.widthFrom = 1 then
    state.stages (fun i => state.loadBits ((c + i) * inner.srcStride + (r + row))) cols
      ((r + row + outer.lo) * outer.dstStride + c + inner.lo)
  else .fault .outOfBounds

/-- `transpose`: the rows `[first, last)`, tile by tile. -/
def transpose (outer inner : WalkAxis) (first last : Int) :
    Outcome ExecutionError (List CellWrite) := do
  let runs ← mapEach (tiles first last) fun tile => do
    let runs ← mapEach (tiles 0 inner.extent) fun block => do
      let runs ← mapEach (intRange 0 tile.2) fun row =>
        state.tileRow outer inner tile.1 block.1 block.2 row
      pure runs.flatten
    pure runs.flatten
  pure runs.flatten

/-- The contiguous run at an outer and a middle index; the direct conversion needs
    aligned buffers. -/
def strip (direct : Bool) (outer middle inner : WalkAxis) (i j : Int) :
    Outcome ExecutionError (List CellWrite) :=
  let input := fun k => state.loadBits (i * outer.srcStride + j * middle.srcStride + k)
  let offset := i * outer.dstStride + j * middle.dstStride
  if direct then .ok (state.convertRun input inner.extent offset)
  else state.stages input inner.extent offset

/-- `stridedRuns`: the rows `[first, last)`, in the order of the source. -/
def stridedRuns (direct : Bool) (outer middle inner : WalkAxis) (first last : Int) :
    Outcome ExecutionError (List CellWrite) := do
  let runs ←
    if middle.srcStride ≤ outer.srcStride then
      mapEach
        ((intRange first last).flatMap fun i => (intRange 0 middle.extent).map fun j => (i, j))
        fun index => state.strip direct outer middle inner index.1 index.2
    else
      mapEach
        ((intRange 0 middle.extent).flatMap fun j => (intRange first last).map fun i => (i, j))
        fun index => state.strip direct outer middle inner index.1 index.2
  pure runs.flatten

end WalkState

/-! ### The walk -/

/-- How the innermost axis is walked. -/
structure RunMode where
  narrowRun : Bool
  bufferedRun : Bool

/-- The innermost axis; the direct conversion needs aligned buffers. -/
def walkRun (state : WalkState) (mode : RunMode) (aligned : Bool) (axis : WalkAxis)
    (iBegin iEnd srcOff dstOff : Int) : Outcome ExecutionError (List CellWrite) :=
  let input := fun i => state.loadBits (srcOff + iBegin + i)
  if mode.narrowRun ∧ aligned then
    .ok (state.convertRun input (iEnd - iBegin) (dstOff + iBegin + axis.lo))
  else if mode.bufferedRun then
    state.stages input (iEnd - iBegin) (dstOff + iBegin + axis.lo)
  else mapEach (intRange iBegin iEnd) fun i =>
    element state (srcOff + i * axis.srcStride) (dstOff + (i + axis.lo) * axis.dstStride)

/-- `walk`: only the first axis is ranged, the others run over their extents. -/
def walkElements (state : WalkState) (mode : RunMode) (aligned : Bool) :
    List WalkAxis → Int → Int → Int → Int → Outcome ExecutionError (List CellWrite)
  | [], _, _, _, _ => .ok []
  | [axis], iBegin, iEnd, srcOff, dstOff =>
      walkRun state mode aligned axis iBegin iEnd srcOff dstOff
  | axis :: next :: rest, iBegin, iEnd, srcOff, dstOff => do
      let runs ← mapEach (intRange iBegin iEnd) fun i =>
        walkElements state mode aligned (next :: rest) 0 next.extent
          (srcOff + i * axis.srcStride) (dstOff + (i + axis.lo) * axis.dstStride)
      pure runs.flatten

/-! ### Kernel selection -/

inductive HostKernel where
  | generic
  | contiguousCast
  | contiguousStages
  | tiledTranspose
  | stridedRuns
deriving DecidableEq, Repr

/-- A dense matrix transpose, the result possibly padded. -/
def tiledLayout : List WalkAxis → Prop
  | [outer, inner] => outer.srcStride = 1 ∧ inner.srcStride = outer.extent ∧ inner.dstStride = 1 ∧
      inner.extent ≤ outer.dstStride
  | _ => False

/-- Three axes without pads, the innermost contiguous on both sides. -/
def stridedLayout (padRegions : List PadRegion) : List WalkAxis → Prop
  | [_, _, inner] => padRegions = [] ∧ inner.srcStride = 1 ∧ inner.dstStride = 1 ∧ 8 ≤ inner.extent
  | _ => False

instance : (axes : List WalkAxis) → Decidable (tiledLayout axes)
  | [_, _] => inferInstanceAs (Decidable (_ ∧ _))
  | [] => inferInstanceAs (Decidable False)
  | [_] => inferInstanceAs (Decidable False)
  | _ :: _ :: _ :: _ => inferInstanceAs (Decidable False)

instance (padRegions : List PadRegion) : (axes : List WalkAxis) →
    Decidable (stridedLayout padRegions axes)
  | [_, _, _] => inferInstanceAs (Decidable (_ ∧ _))
  | [] => inferInstanceAs (Decidable False)
  | [_] => inferInstanceAs (Decidable False)
  | [_, _] => inferInstanceAs (Decidable False)
  | _ :: _ :: _ :: _ :: _ => inferInstanceAs (Decidable False)

namespace Program

variable (program : Program)

/-- The range is one cast from f32 to f16. -/
def narrowCast (fromStage toStage : Nat) : Prop :=
  toStage = fromStage + 1 ∧ ∃ stage ∈ program.stages[fromStage]?,
    stage.transform = .cast ∧ isFloatWidth stage.input 32 ∧ isFloatWidth stage.output 16

instance (fromStage toStage : Nat) : Decidable (program.narrowCast fromStage toStage) :=
  inferInstanceAs (Decidable (_ ∧ ∃ stage ∈ program.stages[fromStage]?, _))

/-- `hostKernel`. -/
def hostKernel (fromStage toStage : Nat) : HostKernel :=
  let layout := program.plan.layout
  match layout.walkAxes.getLast? with
  | none => .generic
  | some inner =>
      if toStage < fromStage ∨ program.stages.length < toStage ∨
          ¬ program.simpleChannels fromStage toStage inner.extent then .generic
      else if tiledLayout layout.walkAxes then .tiledTranspose
      else if stridedLayout layout.padRegions layout.walkAxes then .stridedRuns
      else if inner.srcStride = 1 ∧ inner.dstStride = 1 then
        if program.narrowCast fromStage toStage then .contiguousCast else .contiguousStages
      else .generic

end Program

end SymReloc
