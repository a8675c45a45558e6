import Mathlib.Algebra.Order.Ring.Int
import Mathlib.Data.Nat.Notation
import SymReloc.Runs
import SymReloc.Throwing

/-!
# The transfer queue

`TransferQueue` submits groups of prepared transfers, hands out a `TransferCompletion` for
each, and bounds how many are open and how many bytes their outputs take.  Every method
runs under the queue's lock, so a method is one step; a prefetch window only calls such
methods, and is a program whose steps may have other calls between them.

The calls into the native runtime, the allocator and the streams may raise at any point.
-/

namespace SymReloc.Asynchronous

open Throwing Effect

/-! ### Groups and their outputs -/

/-- A stream, known by its `cuda_stream` handle. -/
structure Stream where
  handle : Nat
  device : Nat
deriving DecidableEq, Repr

/-- What a caller passes for a stream. -/
inductive StreamArgument where
  | absent
  | stream (s : Stream)
  | other
deriving DecidableEq, Repr

inductive Direction where
  | h2d
  | d2h
deriving DecidableEq, Repr

/-- The destination of a request; `itemsize` is that of its dtype. -/
structure Descriptor where
  shape : List Int
  strides : List Int
  itemsize : Nat
  cuda : Bool
deriving DecidableEq, Repr

structure Request where
  direction : Direction
  destination : Descriptor
deriving DecidableEq, Repr

structure PreparedTransferGroup where
  identity : Nat
  device : Nat
  requests : List Request
deriving DecidableEq, Repr

def PreparedTransferGroup.destinations (group : PreparedTransferGroup) : List Descriptor :=
  group.requests.map Request.destination

def Descriptor.bytes (d : Descriptor) : Int :=
  (if 0 ∈ d.shape then 0 else 1 + ((d.shape.zip d.strides).map fun p => (p.1 - 1) * p.2).sum)
    * d.itemsize

/-- `_output_bytes`. -/
def outputBytes (group : PreparedTransferGroup) : Int :=
  (group.destinations.map Descriptor.bytes).sum

/-- An output tensor. -/
structure Tensor where
  descriptor : Descriptor
deriving DecidableEq, Repr

def Tensor.isCuda (t : Tensor) : Bool := t.descriptor.cuda

/-! ### What the queue calls -/

inductive Raised where
  | typeError (text : String)
  | valueError (text : String)
  | runtimeError (text : String)
  | bufferError (text : String)
  | keyError
  | stopIteration
  /-- Whatever a call out of the file raised. -/
  | failure (code : Nat)
deriving DecidableEq, Repr

structure ItemReport where
  sourceBytes : Nat
  wireBytes : Nat
  destinationBytes : Nat
  payloadBytesTransferred : Nat
  implementation : String
deriving DecidableEq, Repr

structure Report where
  logicalTransfers : Nat
  items : List ItemReport
deriving DecidableEq, Repr

/-- How `wait` of the native handle comes back: a native failure has drained the producer
    or has put all its owners into quarantine. -/
inductive Waited where
  | completed
  | drained (error : Raised)
  | quarantined (error : Raised)
deriving DecidableEq, Repr

/-- The calls that return nothing. -/
inductive Call where
  /-- Locking the group and its members, and checking that all are fresh. -/
  | prepare (group : PreparedTransferGroup)
  | emptyStrided (d : Descriptor)
  | enterStream
  | exitStream
  | orderAfter (stream : Stream)
  | currentStream
  | waitStream (native : Nat) (stream : Stream)
  | recordStream (stream : Stream)
  | newEvent
  | recordEvent (event : Nat) (stream : Stream)
  | synchronizeEvent (event : Nat)
  | synchronizeStream (stream : Stream)
  | closeResources
deriving DecidableEq, Repr

/-- The runtime and the tensor library, with a state of their own.  Any call may fail, and
    `torch.empty_strided` makes no tensor of a negative size or stride. -/
structure Backend (W : Type) where
  call : Call → W → Exit Raised Unit × W
  submitDispatchGroup : PreparedTransferGroup → W → Exit Raised Nat × W
  wait : Nat → W → Waited × W
  query : Nat → W → Exit Raised Bool × W
  report : PreparedTransferGroup → W → Exit Raised Report × W
  emptyStrided_nonneg : ∀ d w, (call (.emptyStrided d) w).1 = .returned () →
    ∀ n ∈ d.shape ++ d.strides, 0 ≤ n

/-! ### The state -/

/-- What a completion holds on to until it is closed. -/
structure Owned where
  group : PreparedTransferGroup
  native : Nat
  tensors : List Tensor
  descriptors : List Descriptor
deriving DecidableEq, Repr

/-- A `TransferCompletion`; `owned` is gone once it is closed. -/
structure TransferCompletion where
  owned : Option Owned
  size : Int
  consumers : List Stream
  retired : List Nat
  released : Bool
  closed : Bool
deriving DecidableEq, Repr

/-- An entry of `_QUARANTINE`. -/
structure Quarantined where
  owned : Owned
  consumers : List Stream
  retired : List Nat
deriving DecidableEq, Repr

/-- What `stats` adds up over the reports. -/
structure Totals where
  groups : Nat
  logicalTransfers : Nat
  sourceBytes : Nat
  wireBytes : Nat
  destinationBytes : Nat
  payloadBytesTransferred : Nat
  dispatches : List (String × Nat)
deriving DecidableEq, Repr

/-- The bounds of a queue, which `_positive` has checked. -/
structure Limits where
  maxInFlight : Nat
  maxOutputBytes : Int
  inFlight_pos : 0 < maxInFlight
  outputBytes_pos : 0 < maxOutputBytes

/-- What the caller and the streams have seen, latest first. -/
inductive Event where
  | submitted (h : Nat) (owned : Owned)
  | producerCompleted (h : Nat)
  | producerQuarantined (h : Nat)
  /-- `wait` or `wait_stream` gave the CUDA outputs to work on a stream. -/
  | handedOut (h stream : Nat)
  | recorded (event stream : Nat)
  /-- `release` recorded the end of consumer use. -/
  | useEnded (h : Nat)
  | eventSynchronized (event : Nat)
  | streamSynchronized (stream : Nat)
  | quarantined (h : Nat)
  | dropped (h : Nat)
  | returned (h : Nat)
deriving DecidableEq, Repr

/-- Where a prefetch window is in the call that it runs. -/
inductive Phase where
  | idle
  | fetching
  | checking (group : PreparedTransferGroup)
  | retiring (group : PreparedTransferGroup)
  | submitting (group : PreparedTransferGroup)
  | waiting (h : Nat)
  | closing (rest : List Nat) (error : Option Raised) (exhausted : Bool)
deriving DecidableEq, Repr

structure PrefetchWindow where
  handles : List Nat
  last : Option Nat
  closed : Bool
  phase : Phase
deriving DecidableEq, Repr

/-- A queue with the completions and windows that it has made.  `submitted` also numbers
    the completions, and `events` the events. -/
structure State (W : Type) where
  limits : Limits
  device : Nat
  ownsResources : Bool
  pid : Nat
  process : Nat
  closed : Bool
  held : List Nat
  bytes : Int
  submitted : Nat
  peakBytes : Int
  peakHandles : Nat
  totals : Totals
  completions : Nat → Option TransferCompletion
  windows : List PrefetchWindow
  quarantine : List Quarantined
  events : Nat
  log : List Event
  world : W

variable {W : Type}

abbrev Action (W α : Type) : Type := Effect (State W) Raised α

/-- A call out of the file. -/
def ask {α : Type} (callback : W → Exit Raised α × W) : Action W α := fun s =>
  ((callback s.world).1, { s with world := (callback s.world).2 })

def note (e : Event) : Action W Unit := update fun s => { s with log := e :: s.log }

def completion (h : Nat) : Action W TransferCompletion := fun s =>
  match s.completions h with
  | some c => (.returned c, s)
  | none => (.thrown .keyError, s)

/-- What a completion that is not closed holds. -/
def TransferCompletion.held (c : TransferCompletion) : Action W Owned :=
  match c.owned with
  | some owned => pure owned
  | none => throw (.typeError "'NoneType' object")

def State.modify (s : State W) (h : Nat) (f : TransferCompletion → TransferCompletion) :
    State W :=
  { s with completions := fun k => if k = h then (s.completions k).map f else s.completions k }

def modifyCompletion (h : Nat) (f : TransferCompletion → TransferCompletion) : Action W Unit :=
  update fun s => s.modify h f

/-- `if not condition: raise error`. -/
def demand (condition : Bool) (error : Raised) : Action W Unit :=
  if condition then pure () else throw error

/-- `if error is not None: raise error`. -/
def raiseFirst : Option Raised → Action W Unit
  | none => pure ()
  | some error => throw error

/-! ### Completions -/

section

variable (backend : Backend W)

def checkProcess : Action W Unit := do
  let same ← read fun s => decide (s.pid = s.process)
  demand same (.runtimeError "transfer queue belongs to another process")

def foreignStream : Raised := .valueError "stream must belong to the transfer queue device"

def checkStream : StreamArgument → Action W Stream
  | .stream stream => do
      let device ← read State.device
      demand (stream.device = device) foreignStream
      pure stream
  | _ => throw foreignStream

/-- `_check`. -/
def check (h : Nat) : Action W Unit := do
  checkProcess
  let c ← completion h
  demand (!c.closed) (.runtimeError "transfer completion is closed")

/-- `self._native.wait()`. -/
def nativeWait (h native : Nat) : Action W Unit := do
  let waited ← ask fun w => ((.returned (backend.wait native w).1), (backend.wait native w).2)
  match waited with
  | .completed => note (.producerCompleted h)
  | .drained error => do
      note (.producerCompleted h)
      throw error
  | .quarantined error => do
      note (.producerQuarantined h)
      throw error

/-- Assignment to a key of the `_consumers` dictionary. -/
def insertConsumer (stream : Stream) (consumers : List Stream) : List Stream :=
  if consumers.any fun s => s.handle = stream.handle then
    consumers.map fun s => if s.handle = stream.handle then stream else s
  else consumers ++ [stream]

def recordConsumer (h : Nat) (tensors : List Tensor) (stream : Stream) : Action W Unit := do
  each (fun _ => ask (backend.call (.recordStream stream))) (tensors.filter Tensor.isCuda)
  modifyCompletion h fun c => { c with consumers := insertConsumer stream c.consumers }

/-- `torch.cuda.current_stream(self._queue.device)` for a stream that is not given; `current`
    is what it returns. -/
def chosenStream (argument : StreamArgument) (current : Stream) : Action W StreamArgument :=
  match argument with
  | .absent => do
      ask (backend.call .currentStream)
      pure (.stream current)
  | argument => pure argument

/-- The caller, whose work goes to a stream, gets the outputs. -/
def handOut (h : Nat) (tensors : List Tensor) (stream : Stream) : Action W Unit :=
  if tensors.any Tensor.isCuda then note (.handedOut h stream.handle) else pure ()

def done (h : Nat) : Action W Bool := do
  checkProcess
  check h
  let c ← completion h
  let owned ← c.held
  ask (backend.query owned.native)

structure GroupResult where
  tensors : List Tensor
  descriptors : List Descriptor
  report : Report
deriving DecidableEq, Repr

/-- Ordinary consumption on the current stream, unless its end was recorded already. -/
def recordCurrent (h : Nat) (c : TransferCompletion) (owned : Owned) (current : Stream) :
    Action W Unit :=
  if !c.released && owned.tensors.any Tensor.isCuda then do
    ask (backend.call .currentStream)
    recordConsumer backend h owned.tensors current
  else pure ()

/-- `current` is the stream that is current for the caller on the queue's device. -/
def wait (h : Nat) (current : Stream) : Action W GroupResult := do
  checkProcess
  check h
  let c ← completion h
  let owned ← c.held
  nativeWait backend h owned.native
  recordCurrent backend h c owned current
  let report ← ask (backend.report owned.group)
  handOut h owned.tensors current
  pure ⟨owned.tensors, owned.descriptors, report⟩

def waitStream (h : Nat) (argument : StreamArgument) (current : Stream) :
    Action W (List Tensor) := do
  checkProcess
  check h
  let c ← completion h
  demand (!c.released) (.runtimeError "consumer use was already released")
  let given ← chosenStream backend argument current
  let stream ← checkStream given
  let owned ← c.held
  ask (backend.call (.waitStream owned.native stream))
  recordConsumer backend h owned.tensors stream
  handOut h owned.tensors stream
  pure owned.tensors

/-- An event of the consumer's progress on a stream. -/
def retire (h : Nat) (stream : Stream) : Action W Unit := do
  ask (backend.call .newEvent)
  let event ← read State.events
  update fun s => { s with events := s.events + 1 }
  ask (backend.call (.recordEvent event stream))
  note (.recorded event stream.handle)
  modifyCompletion h fun c => { c with retired := c.retired ++ [event] }

def release (h : Nat) : Action W Unit := do
  checkProcess
  check h
  let c ← completion h
  if c.released then pure ()
  else do
    each (retire backend h) c.consumers
    update fun s =>
      { s.modify h fun c => { c with released := true } with log := .useEnded h :: s.log }

/-- `_record`, once the report is there. -/
def Totals.record (t : Totals) (report : Report) : Totals :=
  report.items.foldl (fun t item =>
    { t with
      sourceBytes := t.sourceBytes + item.sourceBytes
      wireBytes := t.wireBytes + item.wireBytes
      destinationBytes := t.destinationBytes + item.destinationBytes
      payloadBytesTransferred := t.payloadBytesTransferred + item.payloadBytesTransferred
      dispatches :=
        if t.dispatches.any fun p => p.1 = item.implementation then
          t.dispatches.map fun p => if p.1 = item.implementation then (p.1, p.2 + 1) else p
        else t.dispatches ++ [(item.implementation, 1)] })
    { t with
      groups := t.groups + 1
      logicalTransfers := t.logicalTransfers + report.logicalTransfers }

def waitAndRecord (h : Nat) (owned : Owned) : Action W Unit := do
  nativeWait backend h owned.native
  let report ← ask (backend.report owned.group)
  update fun s => { s with totals := s.totals.record report }

def synchronizeEvent (event : Nat) : Action W Unit := do
  ask (backend.call (.synchronizeEvent event))
  note (.eventSynchronized event)

def synchronizeStream (stream : Stream) : Action W Unit := do
  ask (backend.call (.synchronizeStream stream))
  note (.streamSynchronized stream.handle)

/-- Waiting for the consumers: for what `release` recorded, or for all of their streams. -/
def drainConsumers (h : Nat) : Action W Unit := do
  let c ← completion h
  if c.released then each (synchronizeEvent backend) c.retired
  else each (synchronizeStream backend) c.consumers

/-- Where waiting for the consumers failed, the owners stay alive in the quarantine, and the
    queue stops. -/
def quarantineUnknown (h : Nat) (owned : Owned) (drained : Option Raised) : Action W Unit :=
  match drained with
  | none => pure ()
  | some _ => do
      let c ← completion h
      update fun s =>
        { s with
          quarantine := s.quarantine ++ [⟨owned, c.consumers, c.retired⟩]
          closed := true
          log := .quarantined h :: s.log }

/-- The end of `close`, with the queue's `_release`. -/
def drop (h : Nat) : Action W Unit := do
  modifyCompletion h fun c =>
    { c with closed := true, owned := none, consumers := [], retired := [] }
  note (.dropped h)
  let held ← read State.held
  demand (h ∈ held) .keyError
  let c ← completion h
  update fun s => { s with held := s.held.erase h, bytes := s.bytes - c.size }
  note (.returned h)

/-- `close`, which is also `cancel`. -/
def close (h : Nat) : Action W Unit := do
  checkProcess
  let c ← completion h
  if c.closed then pure ()
  else do
    let released ← attempt (release backend h)
    let owned ← c.held
    let waited ← attempt (waitAndRecord backend h owned)
    let drained ← attempt (drainConsumers backend h)
    quarantineUnknown h owned drained
    drop h
    raiseFirst (released <|> waited <|> drained)

/-! ### The queue -/

def canSubmit (group : PreparedTransferGroup) : Action W Bool := do
  checkProcess
  read fun s => !s.closed && s.held.length < s.limits.maxInFlight &&
    s.bytes + outputBytes group ≤ s.limits.maxOutputBytes

/-- `torch.empty_strided`. -/
def emptyStrided (d : Descriptor) : Action W Tensor := do
  ask (backend.call (.emptyStrided d))
  pure ⟨d⟩

def allocateOutputs : List Descriptor → Action W (List Tensor)
  | [] => pure []
  | d :: rest => do
      let tensor ← emptyStrided backend d
      let tensors ← allocateOutputs rest
      pure (tensor :: tensors)

/-- `_execute_transfer_group` with `submit=True`. -/
def executeTransferGroup (group : PreparedTransferGroup) : Action W Owned := do
  ask (backend.call (.prepare group))
  let tensors ← allocateOutputs backend group.destinations
  let native ← ask (backend.submitDispatchGroup group)
  pure ⟨group, native, tensors, group.destinations⟩

/-- `with torch.cuda.stream(self._stream)`. -/
def onQueueStream {α : Type} (m : Action W α) : Action W α := do
  ask (backend.call .enterStream)
  let value ← handle m fun error => do
    ask (backend.call .exitStream)
    throw error
  ask (backend.call .exitStream)
  pure value

/-- The new completion takes its reservation. -/
def State.hold (s : State W) (owned : Owned) (size : Int) : State W :=
  { s with
    completions := fun k =>
      if k = s.submitted then some ⟨some owned, size, [], [], false, false⟩ else s.completions k
    held := s.held ++ [s.submitted]
    bytes := s.bytes + size
    submitted := s.submitted + 1
    peakBytes := max s.peakBytes (s.bytes + size)
    peakHandles := max s.peakHandles (s.held.length + 1)
    log := .submitted s.submitted owned :: s.log }

/-- The queue's own stream goes on after the producer of the sources, which is the caller's
    current stream where the group reads CUDA sources. -/
def orderProducer (group : PreparedTransferGroup) (producer : StreamArgument)
    (current : Stream) : Action W Unit :=
  if producer = .absent ∧ ∀ r ∈ group.requests, r.direction ≠ .d2h then pure ()
  else do
    let given ← chosenStream backend producer current
    let stream ← checkStream given
    ask (backend.call (.orderAfter stream))

def submit (argument : Option PreparedTransferGroup) (producer : StreamArgument)
    (current : Stream) : Action W Nat := do
  checkProcess
  match argument with
  | none => throw (.typeError "submit expects a PreparedTransferGroup")
  | some group => do
      let closed ← read State.closed
      demand (!closed) (.runtimeError "transfer queue is closed")
      let device ← read State.device
      demand (group.device = device) (.valueError "group device differs from the transfer queue")
      let room ← canSubmit group
      demand room
        (.bufferError "transfer queue output/slot budget exceeded; close a prior completion")
      orderProducer backend group producer current
      let owned ← onQueueStream backend (executeTransferGroup backend group)
      let h ← read State.submitted
      update fun s => s.hold owned (outputBytes group)
      pure h

/-- Closing handles one after the other; the first failure is kept. -/
def closeEach : List Nat → Option Raised → Action W (Option Raised)
  | [], error => pure error
  | h :: rest, error => do
      let failure ← attempt (close backend h)
      closeEach rest (error <|> failure)

/-- `TransferQueue.close`; `order` is the order in which the set of held completions is
    gone through. -/
def closeQueue (order : List Nat) : Action W Unit := do
  checkProcess
  update fun s => { s with closed := true }
  let error ← closeEach backend order none
  let owns ← read State.ownsResources
  let failure ← attempt (if owns then ask (backend.call .closeResources) else pure ())
  raiseFirst (error <|> failure)

/-! ### Prefetch windows -/

/-- What the iterator of groups answers. -/
inductive Fetched where
  | group (group : PreparedTransferGroup)
  | exhausted
  | raised (error : Raised)
deriving DecidableEq, Repr

def setWindow (i : Nat) (window : PrefetchWindow) : Action W Unit :=
  update fun s => { s with windows := s.windows.set i window }

/-- An exception ends the call of the window that it comes out of. -/
def leaving {α : Type} (i : Nat) (window : PrefetchWindow) (m : Action W α) : Action W α :=
  handle m fun error => do
    setWindow i { window with phase := .idle }
    throw error

/-- One call that `__next__` or `close` makes; other calls may come in between. -/
def advance (i : Nat) (window : PrefetchWindow) (fetched : Fetched) (current : Stream) :
    Action W Unit :=
  match window.phase with
  | .idle =>
      if window.closed then throw .stopIteration
      else match window.last with
        | some h => do
            release backend h
            setWindow i { window with last := none, phase := .fetching }
        | none => setWindow i { window with phase := .fetching }
  | .fetching =>
      match fetched with
      | .group group => setWindow i { window with phase := .checking group }
      | .exhausted => setWindow i { window with phase := .closing window.handles none true }
      | .raised error => leaving i window (throw error)
  | .checking group => do
      let room ← leaving i window (canSubmit group)
      setWindow i { window with
        phase := if !room && window.handles ≠ [] then .retiring group else .submitting group }
  | .retiring group =>
      match window.handles with
      | [] => setWindow i { window with phase := .submitting group }
      | h :: rest => do
          leaving i { window with handles := rest } (close backend h)
          setWindow i { window with handles := rest, phase := .checking group }
  | .submitting group => do
      let h ← leaving i window (submit backend (some group) .absent current)
      setWindow i
        { window with handles := window.handles ++ [h], last := some h, phase := .waiting h }
  | .waiting h => do
      let _ ← leaving i window (waitStream backend h .absent current)
      setWindow i { window with phase := .idle }
  | .closing (h :: rest) error exhausted => do
      let failure ← attempt (close backend h)
      setWindow i { window with phase := .closing rest (error <|> failure) exhausted }
  | .closing [] error exhausted => do
      setWindow i { window with handles := [], last := none, closed := true, phase := .idle }
      raiseFirst (error <|> if exhausted then some .stopIteration else none)

/-- `PrefetchWindow.close`, called from outside. -/
def closeWindow (i : Nat) (window : PrefetchWindow) : Action W Unit :=
  if window.closed then pure ()
  else setWindow i { window with phase := .closing window.handles none false }

/-! ### Runs -/

inductive Operation where
  /-- The run goes on in a process that inherits the queue. -/
  | fork (process : Nat)
  | submit (group : Option PreparedTransferGroup) (producer : StreamArgument)
      (current : Stream)
  | done (h : Nat)
  | wait (h : Nat) (current : Stream)
  | waitStream (h : Nat) (stream : StreamArgument) (current : Stream)
  | release (h : Nat)
  | close (h : Nat)
  | canSubmit (group : PreparedTransferGroup)
  | closeQueue (order : List Nat)
  | prefetch
  | advance (i : Nat) (fetched : Fetched) (current : Stream)
  | closeWindow (i : Nat)
deriving DecidableEq, Repr

/-- What an operation does to the state, whether it returns or raises.  `cancel` is `close`. -/
def State.operate (s : State W) : Operation → Option (State W)
  | .fork process => some { s with process := process }
  | .submit group producer current => some (submit backend group producer current s).2
  | .done h => some (done backend h s).2
  | .wait h current => some (wait backend h current s).2
  | .waitStream h stream current => some (waitStream backend h stream current s).2
  | .release h => some (release backend h s).2
  | .close h => some (close backend h s).2
  | .canSubmit group => some (canSubmit group s).2
  | .closeQueue order =>
      if order.isPerm s.held then some (closeQueue backend order s).2 else none
  | .prefetch => some { s with windows := s.windows ++ [⟨[], none, false, .idle⟩] }
  | .advance i fetched current =>
      (s.windows[i]?).map fun window => (advance backend i window fetched current s).2
  | .closeWindow i =>
      (s.windows[i]?).bind fun window =>
        if window.phase = .idle then some (closeWindow i window s).2 else none

/-- A new queue. -/
def State.start (limits : Limits) (device : Nat) (ownsResources : Bool) (pid : Nat)
    (world : W) : State W where
  limits := limits
  device := device
  ownsResources := ownsResources
  pid := pid
  process := pid
  closed := false
  held := []
  bytes := 0
  submitted := 0
  peakBytes := 0
  peakHandles := 0
  totals := ⟨0, 0, 0, 0, 0, 0, []⟩
  completions := fun _ => none
  windows := []
  quarantine := []
  events := 0
  log := []
  world := world

/-- The runs of one queue. -/
def system : System (State W) Operation where
  initial s := ∃ limits device ownsResources pid world,
    s = State.start limits device ownsResources pid world
  step s operation := s.operate backend operation

end

end SymReloc.Asynchronous
