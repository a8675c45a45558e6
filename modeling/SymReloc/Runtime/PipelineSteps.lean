import Mathlib.Logic.Function.Basic
import Mathlib.Logic.Relation
import SymReloc.Cache.State
import SymReloc.InFlight
import SymReloc.Runtime.Relocated

/-!
# The pipelined upload, step by step

`executeH2DPrepared` builds the chunks of a schedule one after the other in the slots of a
staging ring and hands each to a queue of the backend.  The host, the queues and the failures of
the backend take turns: a queue runs its copies in order, and what the backend still holds after
a failure may be lost.  A slot is taken again when the event behind its last copy is complete.
-/

namespace SymReloc.Pipelined

open Outcome InFlight
open Cache (TransferCompletion)

/-! ### What is in flight -/

/-- The copy of chunk `number` of the schedule, from its slot to its window. -/
structure Upload where
  slot : Nat
  number : Nat
  chunk : Chunk
deriving DecidableEq, Repr

/-- The staging slots, and the memory of the device. -/
structure Store where
  slots : Nat → Memory UInt8
  device : Memory UInt8

def Upload.run (upload : Upload) (store : Store) : Store :=
  { store with device := upload.chunk.upload.run (store.slots upload.slot) store.device }

def Upload.Reads (slot : Nat) (upload : Upload) : Prop := upload.slot = slot

def Store.write (store : Store) (slot : Nat) (memory : Memory UInt8) : Store :=
  { store with slots := Function.update store.slots slot memory }

/-! ### The staging ring -/

/-- `PinnedBufferPool`: the event that each slot waits for, zero for none, and the slot that was
    acquired last, `-1` before the first. -/
structure Ring where
  events : Nat → Nat
  next : Int
  pending : Bool
  missingEvent : Bool

namespace Ring

/-- The slot that the next `acquire` turns to. -/
def turn (ring : Ring) (activeSlots : Nat) : Nat := ((ring.next + 1) % activeSlots).toNat

/-- The event of a slot has been waited for. -/
def clear (ring : Ring) (slot : Nat) : Ring :=
  { ring with events := Function.update ring.events slot 0 }

/-- `acquire` behind its wait. -/
def advance (ring : Ring) (activeSlots : Nat) : Ring :=
  { ring.clear (ring.turn activeSlots) with next := ring.turn activeSlots }

def setEvent (ring : Ring) (slot event : Nat) : Ring where
  events := Function.update ring.events slot event
  next := ring.next
  pending := true
  missingEvent := ring.missingEvent || event == 0

def markPending (ring : Ring) : Ring := { ring with pending := true }

def markComplete (ring : Ring) : Ring := { ring with pending := false, missingEvent := false }

end Ring

/-! ### The call -/

/-- The arguments of `executeH2DPrepared`, with what it reads of the backend and of the ring. -/
structure Call where
  bound : BoundPlan
  source : Memory UInt8
  schedule : ChunkSchedule
  nBuffers : Nat
  bufferBytes : Nat
  activeSlots : Nat
  /-- `numQueues()`. -/
  queues : Nat
  /-- How the gather pool divides the rows of a chunk. -/
  parts : Chunk → List (Int × Int)

/-- `dispatchRows`: a serialized schedule is gathered inline. -/
def Call.dispatch (call : Call) (chunk : Chunk) : List (Int × Int) :=
  if call.schedule.serialized then [(chunk.validBegin, chunk.validEnd)] else call.parts chunk

/-- What is tested before the first chunk, on a backend that has not failed. -/
def Call.validate (call : Call) : Outcome TransferError Unit := do
  require (1 ≤ call.activeSlots ∧ call.activeSlots ≤ call.nBuffers ∧ call.schedule.chunks ≠ [] ∧
      call.schedule.maxChunkBytes ≤ call.bufferBytes)
    (fail "insufficient_capacity" "invalid staging for schedule")
  require (1 ≤ call.queues) (fail "backend_failure" "backend unavailable: ")
  let outer ← fetch call.bound.extents 0
  forEach call.schedule.chunks (checkCapacity call.bound call.schedule outer)

/-! ### States -/

/-- Where the host is: before a chunk, at a chunk in its slot, in the drain of the ring. -/
inductive Phase where
  | next (k : Nat)
  | fill (k slot : Nat)
  | gather (k slot : Nat)
  | submit (k slot : Nat)
  | record (k slot : Nat)
  | drain (slot : Nat)
  | drained
  | finished (error : Option TransferError)
deriving DecidableEq, Repr

/-- The slot that the host writes. -/
def Phase.builds : Phase → Option Nat
  | .fill _ slot | .gather _ slot | .submit _ slot => some slot
  | _ => none

structure State where
  phase : Phase
  ring : Ring
  completion : TransferCompletion
  flight : Flight Upload
  /-- The event handles that the backend has given. -/
  handles : Nat
  /-- The first failure of the backend. -/
  fault : Option String
  store : Store

def State.failed (s : State) : Bool := s.fault.isSome

/-- The end with an error of the backend. -/
def State.stop (s : State) (what : String) : State :=
  { s with
    phase := .finished (some (fail "backend_failure" (what ++ ": " ++ s.fault.getD ""))) }

/-- A step is taken unless the backend has failed. -/
def State.unlessFailed (s : State) (what : String) (phase : Phase) : State :=
  if s.failed then s.stop what else { s with phase := phase }

/-- A wait for an event returns: it is complete, or there is none. -/
def Waited (flight : Flight Upload) (event : Nat) : Prop := event = 0 ∨ Complete flight event

/-! ### Steps -/

inductive Step (call : Call) : State → State → Prop
  /-- The next slot of the ring, whose copy is complete. -/
  | acquire {s : State} {k : Nat} (hphase : s.phase = .next k)
      (hk : k < call.schedule.chunks.length) (hready : s.fault = none ∧ s.ring.missingEvent = false)
      (hwait : Waited s.flight (s.ring.events (s.ring.turn call.activeSlots))) :
      Step call s { s with
        phase := .fill k (s.ring.turn call.activeSlots)
        ring := s.ring.advance call.activeSlots }
  /-- No slot: before the wait, or after it. -/
  | refused {s : State} {k : Nat} (hphase : s.phase = .next k)
      (hk : k < call.schedule.chunks.length)
      (hrefused : s.failed = true ∨ s.ring.missingEvent = true) {ring : Ring}
      (hring : ring = s.ring ∨ ring = s.ring.advance call.activeSlots) :
      Step call s { s.stop "staging reuse failed" with ring := ring }
  | fill {s : State} {k slot : Nat} {chunk : Chunk} {fill : Nat × List ByteCopy}
      (hphase : s.phase = .fill k slot) (hchunk : call.schedule.chunks[k]? = some chunk)
      (hfill : fillStagingWindow call.bound chunk.bytes = (.ok fill : Outcome TransferError _)) :
      Step call s { s with
        phase := .gather k slot
        store := s.store.write slot (runCopies (pattern fill.1) fill.2 (s.store.slots slot)) }
  | gather {s : State} {k slot : Nat} {chunk : Chunk} {copies : List ByteCopy}
      (hphase : s.phase = .gather k slot) (hchunk : call.schedule.chunks[k]? = some chunk)
      (hcopies : chunkCopies call.bound chunk (call.dispatch chunk) =
        (.ok copies : Outcome TransferError _)) :
      Step call s { s with
        phase := .submit k slot
        store := s.store.write slot (runCopies call.source copies (s.store.slots slot)) }
  | submit {s : State} {k slot : Nat} {chunk : Chunk} (hphase : s.phase = .submit k slot)
      (hchunk : call.schedule.chunks[k]? = some chunk) :
      Step call s (State.unlessFailed
        { s with
          completion := .unknown
          ring := s.ring.markPending
          flight := s.flight ++ [(k % call.queues, .operation ⟨slot, k, chunk⟩)] }
        "copy submission failed" (.record k slot))
  /-- A failed backend does not take the copy. -/
  | dropped {s : State} {k slot : Nat} (hphase : s.phase = .submit k slot)
      (hfailed : s.failed = true) :
      Step call s (State.stop
        { s with completion := .unknown, ring := s.ring.markPending } "copy submission failed")
  | record {s : State} {k slot : Nat} (hphase : s.phase = .record k slot) :
      Step call s (State.unlessFailed
        { s with
          ring := s.ring.setEvent slot (s.handles + 1)
          handles := s.handles + 1
          flight := s.flight ++ [(k % call.queues, .event (s.handles + 1))] }
        "event recording failed" (.next (k + 1)))
  /-- No event comes back. -/
  | noEvent {s : State} {k slot : Nat} (hphase : s.phase = .record k slot) :
      Step call s (State.stop { s with ring := s.ring.setEvent slot 0 } "event recording failed")
  | drain {s : State} (hphase : s.phase = .next call.schedule.chunks.length) :
      Step call s { s with phase := .drain 0 }
  | wait {s : State} {slot : Nat} (hphase : s.phase = .drain slot) (hslot : slot < call.nBuffers)
      (hwait : Waited s.flight (s.ring.events slot) ∨ s.failed = true) :
      Step call s { s with phase := .drain (slot + 1), ring := s.ring.clear slot }
  | mark {s : State} (hphase : s.phase = .drain call.nBuffers) :
      Step call s { s with
        phase := .drained
        ring := if s.failed || s.ring.missingEvent then s.ring else s.ring.markComplete }
  | finish {s : State} (hphase : s.phase = .drained) (hfault : s.fault = none) :
      Step call s { s with phase := .finished none, completion := .complete }
  | unfinished {s : State} (hphase : s.phase = .drained) (hfailed : s.failed = true) :
      Step call s (s.stop "copy completion failed")
  /-- A queue runs what it holds longest. -/
  | run {s : State} {item : Item Upload} {flight : Flight Upload}
      (hruns : Runs s.flight item flight) :
      Step call s { s with flight := flight, store := item.run Upload.run s.store }
  | fault {s : State} (error : String) :
      Step call s { s with fault := some (s.fault.getD error) }
  /-- A failed backend loses what it holds. -/
  | lose {s : State} {flight : Flight Upload} (hfailed : s.failed = true)
      (hsublist : flight.Sublist s.flight) : Step call s { s with flight := flight }

/-- The state in which the loop over the chunks begins. -/
structure Starts (call : Call) (memory : Memory UInt8) (s : State) : Prop where
  admitted : call.validate = .ok ()
  phase : s.phase = .next 0
  events : ∀ slot, s.ring.events slot = 0
  next : -1 ≤ s.ring.next
  missingEvent : s.ring.missingEvent = false
  completion : s.completion = .notLaunched
  flight : s.flight = []
  fault : s.fault = none
  device : s.store.device = memory

/-- The states that a call reaches. -/
def Reachable (call : Call) (memory : Memory UInt8) (s : State) : Prop :=
  ∃ start, Starts call memory start ∧ Relation.ReflTransGen (Step call) start s

end SymReloc.Pipelined
