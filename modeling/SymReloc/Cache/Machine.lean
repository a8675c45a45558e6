import Mathlib.Logic.Function.Basic
import SymReloc.Cache.State
import SymReloc.Runs

/-!
# The resource cache as a system of calls

Any number of threads call the cache.  A call is between two of its lock sections
when another may come in: it waits to be admitted, holds a lease, retires an entry
outside the lock, or waits for a close to become possible.  An action names the call
and the lock section it takes next; what the backend, the factory, the workers and
the clock answer is a part of the action.
-/

namespace SymReloc.Cache

open Ledger

/-! ### Calls -/

/-- What a lease does next. -/
inductive Phase where
  | constructing
  | preparing
  | releasing
  | allocating
  | equipping
  | publishing
  | executing
  | leaving (healthy : Bool)
deriving DecidableEq, Repr

/-- What a call goes on with once it has retired an entry. -/
inductive Resume where
  | done
  | acquire (r : CacheRequest) (ticket : Nat) (waited : Bool)
  | clear (closing : Bool) (cutoff : Nat)

/-- A call.  A lease remembers how far the clears had come when it was granted. -/
inductive Call where
  | outside
  | waiting (r : CacheRequest) (ticket : Nat) (waited : Bool)
  | leased (r : CacheRequest) (id floor : Nat) (phase : Phase)
  | retiring (id : Nat) (resume : Resume)
  | clearing (closing : Bool) (cutoff : Nat)

/-- The entry that a call has for itself. -/
def Call.holds : Call → Option Nat
  | .outside => none
  | .waiting _ _ _ => none
  | .leased _ id _ _ => some id
  | .retiring id _ => some id
  | .clearing _ _ => none

def Resume.call : Resume → Call
  | .done => .outside
  | .acquire r ticket waited => .waiting r ticket waited
  | .clear closing cutoff => .clearing closing cutoff

structure Machine where
  cache : CacheState
  calls : Nat → Call

namespace Machine

def start : Machine where
  cache := .empty
  calls := fun _ => .outside

def setCall (m : Machine) (c : Nat) (call : Call) : Machine :=
  { m with calls := Function.update m.calls c call }

/-- Change the entry with an address, and the call that does it. -/
def touch (m : Machine) (c id : Nat) (change : Entry → Entry) (call : Call) : Machine where
  cache := { m.cache with entries := amend Entry.id m.cache.entries id change }
  calls := Function.update m.calls c call

end Machine

def CacheState.entryOf (s : CacheState) (id : Nat) : Option Entry :=
  s.entries.find? fun e => e.id = id

/-! ### A lease -/

/-- How the execution of a transfer ends: it succeeded and its context may be used
    again or not, it failed and its copies are done, or nobody knows. -/
inductive Ending where
  | succeeded (reusable : Bool)
  | failed
  | unknown
deriving DecidableEq, Repr

inductive LeaseAction where
  | construct (made : Bool)
  | restage (usable : Bool)
  | release
  | allocate (granted : Bool)
  | staged (healthy : Bool)
  | equip (made : Bool)
  | publish
  | recordEvent (slot event : Nat)
  | waitEvent (slot : Nat) (healthy : Bool)
  | settle (ending : Ending)
deriving DecidableEq, Repr

/-- `CountedBackend` around a backend of the factory, in a new context. -/
def Entry.construct (e : Entry) (generation : Nat) : Entry :=
  { e with
    streams := e.key.backend.streams
    context := some
      { born := generation, sizes := [], staging := none, workers := none,
        completion := .notLaunched } }

/-- Whether the staging of a context serves a request. -/
def TransferContext.staged (k : TransferContext) (r : CacheRequest) (capacity : Nat) : Bool :=
  match k.staging with
  | none => false
  | some pool => pool.direction = r.key.direction ∧ pool.nBuffers = r.execution.activeSlots ∧
      capacity ≤ pool.bufferBytes

/-- `CountedBackend::freeStaging` of the first block. -/
def Entry.freeStaging (e : Entry) (k : TransferContext) (bytes : Nat) (rest : List Nat) : Entry :=
  { e with allocated := e.allocated - bytes, context := some { k with sizes := rest } }

/-- `CountedBackend::allocStaging`. -/
def Entry.allocStaging (e : Entry) (k : TransferContext) : Entry :=
  { e with
    allocated := e.allocated + e.capacity
    context := some { k with sizes := k.sizes ++ [e.capacity] } }

def Entry.setContext (e : Entry) (k : TransferContext) : Entry := { e with context := some k }

/-- The gather pool of a context: the one it has if its threads are those of the
    request, else a new one where the request needs more than the calling thread. -/
def TransferContext.equipped (k : TransferContext) (r : CacheRequest) : Option Nat :=
  if k.workers = some r.execution.gatherThreads then k.workers
  else if 1 < r.execution.gatherThreads then some r.execution.gatherThreads
  else none

/-- The owned threads besides the calling one. -/
def TransferContext.backgroundWorkers (k : TransferContext) : Nat :=
  match k.workers with
  | none => 0
  | some threads => threads - 1

/-- `CountedBackend::recordEvent` with `PinnedBufferPool::setEvent`. -/
def Entry.recordEvent (e : Entry) (k : TransferContext) (pool : PinnedBufferPool)
    (slot event : Nat) : Entry :=
  { e with
    events := if event = 0 then e.events else e.events + 1
    context := some { k with staging := some { pool with events := pool.events.set slot event } } }

/-- The wait of `PinnedBufferPool` for a slot, if it has an event. -/
def Entry.waitEvent (e : Entry) (k : TransferContext) (pool : PinnedBufferPool) (slot : Nat)
    (healthy : Bool) : Entry :=
  match pool.events[slot]? with
  | none => e
  | some event =>
      if event = 0 then e
      else
        { e with
          events := if healthy then e.events - 1 else e.events
          context :=
            some { k with staging := some { pool with events := pool.events.set slot 0 } } }

/-- What a lease does between two lock sections, on its own entry: `run` up to the
    end of the execution, with `prepare` inside. -/
def leaseStep (s : CacheState) (r : CacheRequest) (phase : Phase) (e : Entry) (a : LeaseAction) :
    Option (Phase × Entry) :=
  match phase, a, e.context with
  | .constructing, .construct _, some _ => some (.preparing, e)
  | .constructing, .construct made, none =>
      if made then some (.preparing, e.construct s.generation) else some (.leaving false, e)
  | .preparing, .restage usable, some k =>
      if usable = false then some (.leaving false, e)
      else if k.staged r e.capacity then
        some (.equipping, e.setContext { k with completion := .notLaunched })
      else some (.releasing, e.setContext { k with completion := .notLaunched, staging := none })
  | .releasing, .release, some k =>
      match k.sizes with
      | [] => some (.allocating, e)
      | bytes :: rest => some (.releasing, e.freeStaging k bytes rest)
  | .allocating, .allocate granted, some k =>
      if k.sizes.length < r.execution.activeSlots then
        if granted then some (.allocating, e.allocStaging k) else some (.leaving false, e)
      else none
  | .allocating, .staged healthy, some k =>
      if k.sizes.length < r.execution.activeSlots then none
      else if healthy = false then some (.leaving false, e)
      else
        some (.equipping, e.setContext { k with
          staging := some
            { direction := r.key.direction, nBuffers := r.execution.activeSlots,
              bufferBytes := e.capacity, events := List.replicate r.execution.activeSlots 0 } })
  | .equipping, .equip made, some k =>
      if made = false ∧ k.workers ≠ some r.execution.gatherThreads ∧
          1 < r.execution.gatherThreads then
        some (.leaving false, e.setContext { k with workers := none })
      else some (.publishing, e.setContext { k with workers := k.equipped r })
  | .publishing, .publish, some k =>
      let e := { e with allocatedWorkers := k.backgroundWorkers }
      if s.closed then some (.leaving false, e)
      else if s.disabled r.key then some (.leaving false, e)
      else some (.executing, { e with state := .leased })
  | .executing, .recordEvent slot event, some k =>
      match k.staging with
      | none => none
      | some pool => some (.executing, e.recordEvent k pool slot event)
  | .executing, .waitEvent slot healthy, some k =>
      match k.staging with
      | none => none
      | some pool => some (.executing, e.waitEvent k pool slot healthy)
  | .executing, .settle ending, some k =>
      match ending with
      | .succeeded reusable =>
          some (.leaving reusable, e.setContext { k with completion := .complete })
      | .failed => some (.leaving false, e.setContext { k with completion := .complete })
      | .unknown => some (.leaving false, e.setContext { k with completion := .unknown })
  | _, _, _ => none

/-- `TransferContext::close`: a block is freed, or the backend goes.  A context whose
    completion is unknown is left alone. -/
def Entry.teardown (e : Entry) (destroy : Bool) : Option Entry :=
  match e.context with
  | none => none
  | some k =>
      if k.completion = .unknown then none
      else if destroy then
        some { e with context := none, streams := 0, allocatedWorkers := 0, events := 0 }
      else
        match k.sizes with
        | [] => none
        | bytes :: rest => some (e.freeStaging k bytes rest)

/-! ### The lock sections -/

namespace CacheState

/-- `Waiter::remove`. -/
def leave (s : CacheState) (ticket : Nat) : CacheState :=
  { s with waiters := s.waiters.filter (· ≠ ticket) }

def grant (s : CacheState) (ticket id : Nat) : CacheState :=
  { s.leave ticket with grants := s.grants ++ [{ ticket, id }] }

/-- A new waiter at the end of the queue. -/
def enqueue (s : CacheState) : CacheState :=
  { s with waiters := s.waiters ++ [s.nextTicket], nextTicket := s.nextTicket + 1 }

/-- Take an idle entry as it is. -/
def serveHit (s : CacheState) (ticket id : Nat) : CacheState :=
  { s.grant ticket id with
    entries := amend Entry.id s.entries id fun e => { e with state := .leased } }

/-- Reserve the growth of an idle entry while its old bytes remain allocated. -/
def serveGrow (s : CacheState) (ticket id : Nat) (r : CacheRequest) : CacheState :=
  { s.grant ticket id with
    entries := amend Entry.id s.entries id fun e =>
      { e with
        capacity := r.slotCapacity
        bytes := r.bytes
        state := .building
        generation := s.generation } }

def serveMiss (s : CacheState) (ticket : Nat) (r : CacheRequest) : CacheState :=
  { s.grant ticket s.nextId with
    entries := s.entries ++ [Entry.fresh s.nextId s.generation r]
    nextId := s.nextId + 1 }

/-- The start of `clear`: a new generation, unless the cache is closed already. -/
def cutOff (s : CacheState) (closing : Bool) : CacheState :=
  { s with
    generation := if s.closed then s.generation else s.generation + 1
    closed := s.closed || closing }

/-- An idle entry of an older generation. -/
def stale (s : CacheState) (cutoff : Nat) : Option Entry :=
  s.entries.find? fun e => e.idle ∧ e.generation < cutoff

end CacheState

def setState (state : ResourceState) (e : Entry) : Entry := { e with state }

namespace Machine

variable (limits : TransferResourceLimits)

/-- A round of `acquire`. -/
def acquireRound (m : Machine) (c : Nat) (r : CacheRequest) (ticket : Nat) (waited late : Bool) :
    Machine :=
  match m.cache.admission limits ticket r waited late with
  | .refused _ => { m with cache := m.cache.leave ticket }.setCall c .outside
  | .hit id =>
      { m with cache := m.cache.serveHit ticket id }.setCall c
        (.leased r id m.cache.cleared .executing)
  | .grow id =>
      { m with cache := m.cache.serveGrow ticket id r }.setCall c
        (.leased r id m.cache.cleared .constructing)
  | .miss =>
      { m with cache := m.cache.serveMiss ticket r }.setCall c
        (.leased r m.cache.nextId m.cache.cleared .constructing)
  | .evict id => m.touch c id (setState .retiring) (.retiring id (.acquire r ticket waited))
  | .wait => m.setCall c (.waiting r ticket true)

/-- A round of `clear`. -/
def clearRound (m : Machine) (c : Nat) (closing : Bool) (cutoff : Nat) : Machine :=
  match m.cache.stale cutoff with
  | some e => m.touch c e.id (setState .retiring) (.retiring e.id (.clear closing cutoff))
  | none =>
      if closing = false then
        { m with
          cache := { m.cache with cleared := max m.cache.cleared cutoff } }.setCall c .outside
      else
        let u := m.cache.usage none false
        if u.building ≠ 0 ∨ u.leased ≠ 0 ∨ u.retiring ≠ 0 ∨ m.cache.waiters ≠ [] then
          m.setCall c (.clearing closing cutoff)
        else if u.quarantined ≠ 0 then m.setCall c .outside
        else { m with cache := { m.cache with shut := true } }.setCall c .outside

/-- The first lock section of `clear`. -/
def clearStart (m : Machine) (c : Nat) (closing : Bool) : Machine :=
  if closing = false ∧ m.cache.closed = true then m
  else if m.cache.closed = false ∧ m.cache.generation = 2 ^ 64 - 1 then m
  else
    let cache := m.cache.cutOff closing
    { m with cache }.clearRound c closing cache.generation

/-- The lock section of `finish`. -/
def finish (m : Machine) (c : Nat) (e : Entry) (healthy : Bool) : Machine :=
  if healthy = true ∧ e.cacheable = true ∧ m.cache.closed = false ∧
      e.generation = m.cache.generation ∧ m.cache.disabled e.key = false then
    let clock := (m.cache.clock + 1) % 2 ^ 64
    { m with cache := { m.cache with clock } }.touch c e.id
      (fun e => { e with state := .idle, lastUse := clock }) .outside
  else m.touch c e.id (setState .retiring) (.retiring e.id .done)

/-- The lock section of `retire`. -/
def retired (m : Machine) (c : Nat) (e : Entry) (resume : Resume) : Option Machine :=
  match e.context with
  | none =>
      some ({ m with cache :=
        { m.cache with entries := strike Entry.id m.cache.entries e.id } }.setCall c resume.call)
  | some k =>
      if k.completion = .unknown then
        some (m.touch c e.id (setState .quarantined) resume.call)
      else none

end Machine

inductive Action where
  | arrive (c : Nat) (r : CacheRequest)
  | wake (c : Nat) (late : Bool)
  | lease (c : Nat) (a : LeaseAction)
  | teardown (c : Nat) (destroy : Bool)
  | finish (c : Nat)
  | retired (c : Nat)
  | clear (c : Nat) (closing : Bool)
  | resume (c : Nat)

/-- What an action does, where it can be taken. -/
def step (limits : TransferResourceLimits) (m : Machine) : Action → Option Machine
  | .arrive c r =>
      match m.calls c with
      | .outside =>
          some ({ m with cache := m.cache.enqueue }.acquireRound limits c r m.cache.nextTicket
            false false)
      | _ => none
  | .wake c late =>
      match m.calls c with
      | .waiting r ticket waited => some (m.acquireRound limits c r ticket waited late)
      | _ => none
  | .lease c a =>
      match m.calls c with
      | .leased r id floor phase => do
          let e ← m.cache.entryOf id
          let (phase, e') ← leaseStep m.cache r phase e a
          some (m.touch c id (fun _ => e') (.leased r id floor phase))
      | _ => none
  | .teardown c destroy =>
      match m.calls c with
      | .leased r id floor (.leaving false) => do
          let e ← m.cache.entryOf id
          let e' ← e.teardown destroy
          some (m.touch c id (fun _ => e') (.leased r id floor (.leaving false)))
      | .retiring id resume => do
          let e ← m.cache.entryOf id
          let e' ← e.teardown destroy
          some (m.touch c id (fun _ => e') (.retiring id resume))
      | _ => none
  | .finish c =>
      match m.calls c with
      | .leased _ id _ (.leaving healthy) => do
          let e ← m.cache.entryOf id
          some (m.finish c e healthy)
      | _ => none
  | .retired c =>
      match m.calls c with
      | .retiring id resume => do
          let e ← m.cache.entryOf id
          m.retired c e resume
      | _ => none
  | .clear c closing =>
      match m.calls c with
      | .outside => some (m.clearStart c closing)
      | _ => none
  | .resume c =>
      match m.calls c with
      | .clearing closing cutoff => some (m.clearRound c closing cutoff)
      | _ => none

/-- The cache with these limits. -/
def system (limits : TransferResourceLimits) : System Machine Action where
  initial := fun m => m = .start
  step := step limits

end SymReloc.Cache
