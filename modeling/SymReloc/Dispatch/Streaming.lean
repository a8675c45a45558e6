import SymReloc.Ledger
import SymReloc.Runs
import SymReloc.Runtime.TypedChunks

/-!
# Streamed typed uploads

`streamToDevice` stages a whole wire with one dispatch of the workers.  A worker goes
through the chunks, writes its rows of each and counts them down; the worker that brings
a chunk's count to nothing enqueues its copy.  Workers, the device and the caller take
turns at every write of a cell, every count, every copy and every call on the backend.
What the backend answers is a part of the action.
-/

namespace SymReloc

open Outcome Writes

/-- One worker for all units. -/
def HostCall.soleWork (call : HostCall) (aligned : Bool) :
    Outcome ExecutionError (List CellWrite) :=
  if call.window.first < call.window.last then call.bounded (call.work aligned 0 call.units)
  else .ok []

/-- `executeHostChunk` without a pool and with one thread: what it writes, in order. -/
def chunkWrites (program : Program) (fromStage toStage : Nat) (chunk : Chunk) (aligned : Bool)
    (source : Memory Nat) : Outcome ExecutionError (List CellWrite) := do
  let call ← prologue program fromStage toStage (some chunk) source
  let writes ← call.soleWork aligned
  pure (prefill call.state.widthTo call.window call.fill ++ writes)

/-- `GatherPool::parallelFor`: the ranges of the caller and of the workers. -/
def parallelRanges (threads first last minPerWorker : Int) : List (Int × Int) :=
  let n := last - first
  if n ≤ 0 then [] else
    let parts := min threads (max 1 (n / max minPerWorker 1))
    let per := (n + parts - 1) / parts
    ((intRange 0 parts).map fun p => (first + p * per, min (first + (p + 1) * per) last)).filter
      fun range => range.1 < range.2

/-- The bytes a streamed chunk aims at. -/
def streamTarget (bytes : Nat) : Nat := min (max (bytes / 8) (128 * 1024)) (1024 * 1024)

/-- The wire and the schedule that `streamToDevice` accepts, or nothing. -/
def Program.streamSchedule (program : Program) (boundary : Nat) :
    Outcome ExecutionError (Option (BoundPlan × ChunkSchedule)) := do
  let wire ← program.wire boundary
  let schedule ← planChunks wire 1 (streamTarget (toSize wire.totalBytes))
  if schedule.serialized = true ∨ schedule.outerLo ≠ 0 ∨ schedule.chunks.length < 2 ∨
      ¬ (∃ last ∈ schedule.chunks.getLast?, last.byteOffset + last.bytes = wire.totalBytes) ∨
      ∃ chunk ∈ schedule.chunks,
        chunk.paddedBegin ≠ chunk.validBegin ∨ chunk.paddedEnd ≠ chunk.validEnd then
    pure none
  else pure (some (wire, schedule))

/-- The rows that are divided among the workers: those before the end of the last chunk. -/
def ChunkSchedule.streamRows (schedule : ChunkSchedule) : Int :=
  (schedule.chunks.getLast?.map Chunk.validEnd).getD 0

/-- The rows of a chunk that are in a worker's range. -/
def Chunk.share (chunk : Chunk) (range : Int × Int) : Int × Int :=
  (max range.1 chunk.validBegin, min range.2 chunk.validEnd)

/-- The window of a worker's rows of a chunk. -/
def ChunkSchedule.shareWindow (schedule : ChunkSchedule) (chunk : Chunk) (range : Int × Int) :
    Chunk :=
  let rows := chunk.share range
  { chunk with
    paddedBegin := rows.1, validBegin := rows.1, paddedEnd := rows.2, validEnd := rows.2
    byteOffset := rows.1 * schedule.rowBytes
    bytes := toSize ((rows.2 - rows.1) * schedule.rowBytes) }

namespace Streaming

/-! ### Calls and states -/

/-- A call that goes on with its schedule, at a boundary that all pads have entered before.
    `ranges` are the rows of the workers, and `retains` says that the backend keeps a block
    that is freed, as that of an engine does: only such a backend is used without a drain. -/
structure StreamCall where
  program : Program
  boundary : Nat
  source : Memory Nat
  wire : BoundPlan
  schedule : ChunkSchedule
  ranges : List (Int × Int)
  drain : Bool
  retains : Bool
  settled : program.padsSettledBy boundary = true
  accepted : program.streamSchedule boundary = .ok (some (wire, schedule))
  divided : Partition 0 ranges schedule.streamRows
  undrained : drain = false → retains = true

/-- Where a worker is: at the head of the loop, with cells of a window to write, about to
    enqueue a copy, or at the end. -/
inductive WorkerPhase where
  | scanning
  | staging (writes : List CellWrite) (failure : Option ExecutionError)
  | submitting (k : Nat)
  | stopped
  | thrown
deriving DecidableEq, Repr

/-- `next` is the first chunk whose rows the worker has not counted. -/
structure Worker where
  id : Nat
  range : Int × Int
  next : Nat
  phase : WorkerPhase
deriving DecidableEq, Repr

inductive StreamEnd where
  | success
  | execution (reason : ExecutionError)
  | backendFailure (phase : String)
  | unwound
deriving DecidableEq, Repr

/-- `submitted` and `inFlight` are history: the copies that were enqueued, and those of
    them that the backend took and has not completed. -/
structure StreamState where
  entered : Bool
  workers : List Worker
  staging : Memory Nat
  device : Memory Nat
  remaining : Nat → Int
  failed : Bool
  error : Option ExecutionError
  backendFailed : Bool
  submitted : List Nat
  inFlight : List Nat
  ended : Option StreamEnd
  released : Bool

/-- The answers to the record of the final event and to its wait; `failing` says that the
    calls leave the backend failed. -/
structure DrainAnswer where
  recorded : Bool
  waited : Bool
  failing : Bool
deriving DecidableEq, Repr

/-- Completion was established. -/
def DrainAnswer.establishes (answer : DrainAnswer) : Bool := answer.recorded && answer.waited

/-- What happens next.  `partialWrites` is what a window that fails has written before. -/
inductive Action where
  | enter (queues allocated : Bool)
  | advance (w : Nat) (aligned : Bool) (partialWrites : List CellWrite)
  | throws (w : Nat)
  | submit (w : Nat) (accepted failing : Bool)
  | complete
  | settle (answer : DrainAnswer)
  | release (leftover : Memory Nat)

/-- Before the call. -/
def StreamState.start (staging device : Memory Nat) : StreamState where
  entered := false
  workers := []
  staging := staging
  device := device
  remaining := fun _ => 0
  failed := false
  error := none
  backendFailed := false
  submitted := []
  inFlight := []
  ended := none
  released := false

/-! ### Steps -/

namespace StreamCall

variable (c : StreamCall)

/-- The workers of the dispatch, each with its range. -/
def workers : List Worker :=
  c.ranges.zipIdx.map fun entry =>
    { id := entry.2, range := entry.1, next := 0, phase := .scanning }

/-- The rows of a chunk that a worker has. -/
def rows (k : Nat) (range : Int × Int) : Int :=
  match c.schedule.chunks[k]? with
  | none => 0
  | some chunk => max 0 ((chunk.share range).2 - (chunk.share range).1)

def chunkRows (k : Nat) : Int :=
  match c.schedule.chunks[k]? with
  | none => 0
  | some chunk => chunk.validEnd - chunk.validBegin

/-- The cells of a chunk. -/
def holds (k : Nat) (cell : Int) : Bool :=
  match c.schedule.chunks[k]? with
  | none => false
  | some chunk =>
      decide (chunk.byteOffset / c.wire.elementSize ≤ cell ∧
        cell < chunk.byteOffset / c.wire.elementSize + (chunk.bytes : Int) / c.wire.elementSize)

/-- The copy of a chunk. -/
def upload (staging device : Memory Nat) (k : Nat) : Memory Nat :=
  fun cell => if c.holds k cell then staging cell else device cell

/-- Up to the dispatch: a queue and staging are there, or the call returns. -/
def enter (s : StreamState) (queues allocated : Bool) : StreamState :=
  if queues = false then
    { s with entered := true, ended := some (.backendFailure "backend has no copy queue") }
  else if allocated = false then
    { s with
      entered := true, backendFailed := true
      ended := some (.backendFailure "host scratch allocation failed") }
  else { s with entered := true, workers := c.workers, remaining := c.chunkRows }

/-- Put a worker in another place. -/
def move (s : StreamState) (w : Worker) : StreamState :=
  { s with workers := Ledger.amend Worker.id s.workers w.id fun _ => w }

/-- The head of the loop: the next chunk of which the worker has rows. -/
def scan (s : StreamState) (w : Worker) (aligned : Bool) (partialWrites : List CellWrite) :
    Option StreamState :=
  if s.failed then some (move s { w with phase := .stopped })
  else
    match c.schedule.chunks[w.next]? with
    | none => some (move s { w with phase := .stopped })
    | some chunk =>
        if (chunk.share w.range).2 ≤ (chunk.share w.range).1 then
          some (move s { w with next := w.next + 1 })
        else
          let window := c.schedule.shareWindow chunk w.range
          match chunkWrites c.program 0 c.boundary window aligned c.source with
          | .ok writes => some (move s { w with phase := .staging writes none })
          | .error reason =>
              -- a window that fails may have written some of its cells, and no others
              if ∀ write ∈ partialWrites, 0 ≤ write.cell ∧
                  write.cell < (window.bytes : Int) / c.wire.elementSize then
                some (move s { w with phase := .staging partialWrites (some reason) })
              else none
          | .fault _ => none

/-- One write of a worker. -/
def write (s : StreamState) (w : Worker) (entry : CellWrite) (rest : List CellWrite)
    (failure : Option ExecutionError) : Option StreamState :=
  match c.schedule.chunks[w.next]? with
  | none => none
  | some chunk =>
      let origin := (c.schedule.shareWindow chunk w.range).byteOffset / c.wire.elementSize
      some (move { s with staging := Function.update s.staging (entry.cell + origin) entry.value }
        { w with phase := .staging rest failure })

/-- The rows of a window are written: count them, or stop. -/
def finish (s : StreamState) (w : Worker) (failure : Option ExecutionError) : StreamState :=
  match failure with
  | some reason =>
      move { s with error := s.error <|> some reason, failed := true } { w with phase := .stopped }
  | none =>
      let old := s.remaining w.next
      let count := c.rows w.next w.range
      let s := { s with remaining := Function.update s.remaining w.next (old - count) }
      if old = count then move s { w with next := w.next + 1, phase := .submitting w.next }
      else move s { w with next := w.next + 1, phase := .scanning }

/-- The next turn of a worker. -/
def advance (s : StreamState) (w : Worker) (aligned : Bool) (partialWrites : List CellWrite) :
    Option StreamState :=
  match w.phase with
  | .scanning => c.scan s w aligned partialWrites
  | .staging (entry :: rest) failure => c.write s w entry rest failure
  | .staging [] failure => some (c.finish s w failure)
  | .submitting _ | .stopped | .thrown => none

/-- An exception leaves the worker; a backend throws none. -/
def throws (s : StreamState) (w : Worker) : Option StreamState :=
  match w.phase with
  | .scanning | .staging _ _ => some (move s { w with phase := .thrown })
  | .submitting _ | .stopped | .thrown => none

/-- `copyAsync`: the backend takes the copy, or has failed. -/
def submit (s : StreamState) (w : Worker) (accepted failing : Bool) : Option StreamState :=
  match w.phase with
  | .submitting k =>
      some (move { s with
        submitted := s.submitted ++ [k]
        inFlight := if accepted then s.inFlight ++ [k] else s.inFlight
        backendFailed := s.backendFailed || failing || !accepted } { w with phase := .scanning })
  | .scanning | .staging _ _ | .stopped | .thrown => none

/-- The copy at the head of the queue. -/
def complete (s : StreamState) : Option StreamState :=
  match s.inFlight with
  | [] => none
  | k :: rest => some { s with inFlight := rest, device := c.upload s.staging s.device k }

/-- `waitEvent(recordEvent(0))`. -/
def settleQueue (s : StreamState) (answer : DrainAnswer) : StreamState :=
  if answer.establishes then
    { s with
      device := s.inFlight.foldl (c.upload s.staging) s.device, inFlight := []
      backendFailed := s.backendFailed || answer.failing }
  else { s with backendFailed := true }

/-- After the barrier of `parallelFor`: unwind, or drain and return. -/
def settle (s : StreamState) (answer : DrainAnswer) : StreamState :=
  if s.workers.any fun w => w.phase = .thrown then { s with ended := some .unwound }
  else if s.failed || s.backendFailed then
    { c.settleQueue s answer with
      ended := some (match s.error with
        | some reason => .execution reason
        | none => .backendFailure "streamed chunk copy failed") }
  else if c.drain = false then { s with ended := some .success }
  else
    let drained := c.settleQueue s answer
    { drained with
      ended := some (if drained.backendFailed then .backendFailure "streamed completion failed"
        else .success) }

/-- The end of the staging guard: what the backend does not keep may be used again. -/
def release (s : StreamState) (leftover : Memory Nat) : StreamState :=
  if c.retains then s else { s with released := true, staging := leftover }

end StreamCall

def StreamState.workerAt (s : StreamState) (w : Nat) : Option Worker :=
  s.workers.find? fun worker => worker.id = w

/-- Every worker has come to its end. -/
def StreamState.joined (s : StreamState) : Bool :=
  s.workers.all fun w => w.phase = .stopped || w.phase = .thrown

def step (c : StreamCall) (s : StreamState) : Action → Option StreamState
  | .enter queues allocated =>
      if s.entered then none else some (c.enter s queues allocated)
  | .advance w aligned partialWrites =>
      match s.workerAt w with
      | none => none
      | some worker => c.advance s worker aligned partialWrites
  | .throws w =>
      match s.workerAt w with
      | none => none
      | some worker => StreamCall.throws s worker
  | .submit w accepted failing =>
      match s.workerAt w with
      | none => none
      | some worker => StreamCall.submit s worker accepted failing
  | .complete => c.complete s
  | .settle answer =>
      if s.entered && s.ended.isNone && s.joined then some (c.settle s answer) else none
  | .release leftover =>
      if s.entered && s.ended.isSome && !s.released then some (c.release s leftover) else none

/-- A call on staging and a device with some contents. -/
def system (c : StreamCall) (staging device : Memory Nat) : System StreamState Action where
  initial s := s = StreamState.start staging device
  step := step c

end Streaming

end SymReloc
