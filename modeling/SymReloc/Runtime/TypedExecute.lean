import SymReloc.Runtime.Staging
import SymReloc.Runtime.TypedKernels

/-!
# Executing typed programs on the host

`executeHost` and `executeHostChunk` run a range of stages over all rows of the
layout, or over the rows of a chunk into a local window.  The destination is filled
with the pads' value first; the elements are then written by one worker, or, where
rows are disjoint, by several workers in any interleaving.
-/

namespace SymReloc

open Outcome Writes

namespace Program

variable (program : Program)

/-- `bytesAt` in the result layout. -/
def bytesAt (boundary : Nat) : Outcome ExecutionError Int := do
  let width ← program.widthAt boundary
  pure (program.resultElements * width)

/-- The layout with the element size and the bytes of a boundary. -/
def wire (boundary : Nat) : Outcome ExecutionError BoundPlan := do
  let width ← program.widthAt boundary
  let bytes ← program.bytesAt boundary
  pure { program.plan.layout with elementSize := width, totalBytes := bytes }

end Program

/-! ### Windows -/

/-- The valid rows `[first, last)` and the cells of a destination. -/
structure RowWindow where
  first : Int
  last : Int
  origin : Int
  elements : Int
deriving DecidableEq, Repr

/-- The whole destination, or the window of a chunk of complete disjoint rows. -/
def resolveWindow (program : Program) (toStage width : Nat) :
    Option Chunk → Outcome ExecutionError RowWindow
  | none => do
      let outer ← fetch program.plan.layout.extents 0
      pure { first := 0, last := outer, origin := 0, elements := program.resultElements }
  | some chunk => do
      let outer ← fetch program.plan.layout.extents 0
      let wire ← program.wire toStage
      -- a maximal target gives one window
      let whole ← planChunks wire 1 (toSize wire.totalBytes)
      let full ← fetch whole.chunks 0
      require (whole.serialized = false ∧ full.bytes = toSize wire.totalBytes ∧
          0 ≤ chunk.paddedBegin ∧ chunk.paddedBegin < chunk.paddedEnd ∧
          chunk.paddedEnd ≤ full.paddedEnd ∧
          chunk.byteOffset = chunk.paddedBegin * whole.rowBytes ∧
          chunk.bytes = toSize ((chunk.paddedEnd - chunk.paddedBegin) * whole.rowBytes))
        ⟨.invalidChunk, "chunk is not a disjoint physical row window"⟩
      let first := min (max (chunk.paddedBegin - whole.outerLo) 0) outer
      let last := min (max (chunk.paddedEnd - whole.outerLo) first) outer
      require (chunk.validBegin = first ∧ chunk.validEnd = last)
        ⟨.invalidChunk, "chunk valid rows differ from its physical window"⟩
      pure { first, last, origin := chunk.byteOffset / width, elements := chunk.bytes / width }

/-- `fillPattern`: every cell of the window. -/
def prefill (width : Nat) (window : RowWindow) : Option Nat → List CellWrite
  | none => []
  | some bits => (intRange 0 window.elements).map fun cell => ⟨cell, bits % 2 ^ (8 * width)⟩

/-! ### Work -/

/-- A checked call: the walk's state, the kernel, the window and the fill. -/
structure HostCall where
  state : WalkState
  kernel : HostKernel
  window : RowWindow
  fill : Option Nat

/-- The checks before any element is written. -/
def prologue (program : Program) (fromStage toStage : Nat) (chunk : Option Chunk)
    (source : Memory Nat) : Outcome ExecutionError HostCall := do
  require (fromStage ≤ toStage ∧ toStage ≤ program.stages.length)
    ⟨.invalidBoundary, "stage range [" ++ toString fromStage ++ ", " ++ toString toStage ++
      ") is not inside the program"⟩
  require (program.padsSettledBy toStage) ⟨.padsNotSettled, "a pad enters after boundary " ++
    toString toStage ++ "; the padded result layout does not exist there"⟩
  let fill ← program.fillAt toStage
  let widthTo ← program.widthAt toStage
  let window ← resolveWindow program toStage widthTo chunk
  let widthFrom ← program.widthAt fromStage
  pure {
    state := { program, fromStage, toStage, source, widthFrom, widthTo, origin := window.origin }
    kernel := program.hostKernel fromStage toStage
    window, fill }

namespace HostCall

variable (call : HostCall)

def layout : BoundPlan := call.state.program.plan.layout

/-- The generic walk of a range of rows. -/
def walkRows (mode : RunMode) (aligned : Bool) (first last : Int) :
    Outcome ExecutionError (List CellWrite) :=
  walkElements call.state mode aligned call.layout.walkAxes first last 0 0

def mode : RunMode where
  narrowRun := decide (call.kernel = .contiguousCast)
  bufferedRun := decide (call.kernel = .contiguousCast ∨ call.kernel = .contiguousStages)

/-- The units of work: rows, or blocks of rows of a transpose. -/
def units : Int :=
  if call.kernel = .tiledTranspose then
    (call.window.last - call.window.first + kTypedTile - 1) / kTypedTile
  else call.window.last - call.window.first

/-- The elements of the units `[first, last)`, in the order of the kernel. -/
def work (aligned : Bool) (first last : Int) : Outcome ExecutionError (List CellWrite) :=
  let begin := call.window.first
  match call.kernel, call.layout.walkAxes with
  | .stridedRuns, [outer, middle, inner] =>
      call.state.stridedRuns
        (call.state.program.narrowCast call.state.fromStage call.state.toStage ∧ aligned)
        outer middle inner (begin + first) (begin + last)
  | .tiledTranspose, [outer, inner] =>
      call.state.transpose outer inner (begin + first * kTypedTile)
        (min call.window.last (begin + last * kTypedTile))
  | _, _ => call.walkRows call.mode aligned (begin + first) (begin + last)

/-- Writes outside the destination are undefined. -/
def bounded (run : Outcome ExecutionError (List CellWrite)) :
    Outcome ExecutionError (List CellWrite) := do
  let writes ← run
  if ∀ write ∈ writes, 0 ≤ write.cell ∧ write.cell < call.window.elements then pure writes
  else .fault .outOfBounds

/-- Rows that write apart: an outer step spans the inner block. -/
def rowsDisjoint : Prop :=
  match call.layout.walkAxes with
  | [] => False
  | outer :: inner =>
      (inner.map fun axis => (axis.extent - 1) * axis.dstStride).sum + 1 ≤ outer.dstStride

/-- A division of the units among workers: one worker for all, or any consecutive
    ranges where rows are disjoint. -/
def Divided (parts : List (Int × Int)) : Prop :=
  parts = (if call.window.first < call.window.last then [(0, call.units)] else []) ∨
    (call.rowsDisjoint ∧ 1 < call.units ∧ Partition 0 parts call.units)

end HostCall

/-- What workers with the given runs make of a memory: their writes in any
    interleaving, or the error of one of them. -/
inductive Finishes (runs : List (Outcome ExecutionError (List CellWrite))) (memory : Memory Nat) :
    Outcome ExecutionError (Memory Nat) → Prop where
  | written (lists : List (List CellWrite)) (history : List (Nat × CellWrite)) :
      runs = lists.map .ok → Interleaves lists history →
      Finishes runs memory (.ok (run (history.map Prod.snd) memory))
  | failed (reason : ExecutionError) : .error reason ∈ runs → Finishes runs memory (.error reason)
  | faulted (kind : Fault) : .fault kind ∈ runs → Finishes runs memory (.fault kind)

/-- One worker has a result. -/
theorem exists_finishes (runs : List (Outcome ExecutionError (List CellWrite)))
    (hone : runs.length ≤ 1) (memory : Memory Nat) : ∃ result, Finishes runs memory result := by
  match runs, hone with
  | [], _ => exact ⟨_, .written [] [] rfl fun _ => rfl⟩
  | [.ok writes], _ => exact ⟨_, .written [writes] _ rfl (interleaves_single writes)⟩
  | [.error reason], _ => exact ⟨_, .failed reason (List.mem_singleton_self _)⟩
  | [.fault kind], _ => exact ⟨_, .faulted kind (List.mem_singleton_self _)⟩

/-- The results of one call of `executeHost`, or of `executeHostChunk` where a chunk is
    given: a destination, an error of the checks or an error of the walk. -/
def Executes (program : Program) (fromStage toStage : Nat) (chunk : Option Chunk) (aligned : Bool)
    (source memory : Memory Nat) (result : Outcome ExecutionError (Memory Nat)) : Prop :=
  match prologue program fromStage toStage chunk source with
  | .error reason => result = .error reason
  | .fault kind => result = .fault kind
  | .ok call => ∃ parts, call.Divided parts ∧
      Finishes (parts.map fun part => call.bounded (call.work aligned part.1 part.2))
        (run (prefill call.state.widthTo call.window call.fill) memory) result

end SymReloc
