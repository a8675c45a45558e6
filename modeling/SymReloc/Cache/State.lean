import SymReloc.Cache.Request
import SymReloc.Ledger

/-!
# The state of the resource cache

The entries of the cache with their charges and counters, what the cache reads off
them, and the verdict of one round of admission.  The counters that the code
increments and decrements are integers here, so that one that went below zero would
show as a negative number.
-/

namespace SymReloc.Cache

open Ledger

/-! ### Entries -/

inductive ResourceState where
  | building
  | leased
  | idle
  | retiring
  | quarantined
deriving DecidableEq, Repr

inductive TransferCompletion where
  | notLaunched
  | complete
  | unknown
deriving DecidableEq, Repr

/-- The staging ring of a context with the events it still waits for, zero for none. -/
structure PinnedBufferPool where
  direction : TransferDirection
  nBuffers : Nat
  bufferBytes : Nat
  events : List Nat
deriving DecidableEq, Repr

/-- What a context owns.  `born` is the generation of the cache when the factory made
    its backend; the code does not keep it. -/
structure TransferContext where
  born : Nat
  /-- The sizes of the staging blocks that the backend has handed out. -/
  sizes : List Nat
  staging : Option PinnedBufferPool
  workers : Option Nat
  completion : TransferCompletion
deriving DecidableEq, Repr

/-- An entry; `id` stands for its address. -/
structure Entry where
  id : Nat
  key : ResourceKey
  capacity : Nat
  bytes : Nat
  workers : Nat
  cacheable : Bool
  allocated : Int
  allocatedWorkers : Int
  streams : Int
  events : Int
  generation : Nat
  lastUse : Nat
  state : ResourceState
  context : Option TransferContext
deriving DecidableEq, Repr

/-- The entry made for a request. -/
def Entry.fresh (id generation : Nat) (r : CacheRequest) : Entry where
  id := id
  key := r.key
  capacity := r.slotCapacity
  bytes := r.bytes
  workers := r.workers
  cacheable := r.cacheable
  allocated := 0
  allocatedWorkers := 0
  streams := 0
  events := 0
  generation := generation
  lastUse := 0
  state := .building
  context := none

def Entry.quarantined (e : Entry) : Bool := e.state = .quarantined

def Entry.idle (e : Entry) : Bool := e.state = .idle

/-! ### Usage -/

structure TransferResourceUsage where
  contexts : Nat
  building : Nat
  leased : Nat
  idle : Nat
  retiring : Nat
  quarantined : Nat
  allocatedStagingBytes : Int
  reservedStagingBytes : Int
  retainedAllocatedBytes : Int
  retainedReservedBytes : Int
  backgroundWorkers : Int
  reservedWorkers : Int
  streams : Int
  quarantineBytes : Int
  outstandingEvents : Int
deriving DecidableEq, Repr

/-- The sum of a counter. -/
def sumOf (counter : Entry → Int) (entries : List Entry) : Int := (entries.map counter).sum

def countOf (state : ResourceState) (entries : List Entry) : Nat :=
  entries.countP fun e => e.state = state

def usageOf (entries : List Entry) : TransferResourceUsage where
  contexts := entries.length
  building := countOf .building entries
  leased := countOf .leased entries
  idle := countOf .idle entries
  retiring := countOf .retiring entries
  quarantined := countOf .quarantined entries
  allocatedStagingBytes := sumOf Entry.allocated entries
  reservedStagingBytes := sumOf (fun e => e.bytes - e.allocated) entries
  retainedAllocatedBytes := sumOf Entry.allocated (entries.filter Entry.cacheable)
  retainedReservedBytes := sumOf (fun e => e.bytes - e.allocated) (entries.filter Entry.cacheable)
  backgroundWorkers := sumOf Entry.allocatedWorkers entries
  reservedWorkers := sumOf (fun e => e.workers - e.allocatedWorkers) entries
  streams := sumOf Entry.streams entries
  quarantineBytes := sumOf Entry.allocated (entries.filter Entry.quarantined)
  outstandingEvents := sumOf Entry.events entries

def live (u : TransferResourceUsage) : Int := u.allocatedStagingBytes + u.reservedStagingBytes

def retained (u : TransferResourceUsage) : Int := u.retainedAllocatedBytes + u.retainedReservedBytes

def workers (u : TransferResourceUsage) : Int := u.backgroundWorkers + u.reservedWorkers

def exceeds (used added : Int) (limit : Nat) : Bool := limit < added ∨ limit - added < used

theorem exceeds_eq_false {used added : Int} {limit : Nat} (h : exceeds used added limit = false) :
    used + added ≤ limit := by
  simp only [exceeds, decide_eq_false_iff_not] at h
  omega

/-! ### The state -/

/-- A granted lease: the place of its caller in the order of arrival, and the entry. -/
structure Grant where
  ticket : Nat
  id : Nat
deriving DecidableEq, Repr

/-- The state under the lock.  `nextId`, `nextTicket`, `grants`, `cleared` and `shut` are
    history: addresses and arrivals given out, leases granted, the generation that the
    clears which have returned have reached, and whether a close has succeeded. -/
structure CacheState where
  entries : List Entry
  waiters : List Nat
  closed : Bool
  generation : Nat
  clock : Nat
  nextId : Nat
  nextTicket : Nat
  grants : List Grant
  cleared : Nat
  shut : Bool
deriving DecidableEq, Repr

namespace CacheState

def empty : CacheState where
  entries := []
  waiters := []
  closed := false
  generation := 0
  clock := 0
  nextId := 0
  nextTicket := 0
  grants := []
  cleared := 0
  shut := false

/-- The entries of a device, or all of them. -/
def onDevice (s : CacheState) : Option ResourceKey → List Entry
  | none => s.entries
  | some key => s.entries.filter fun e => e.key.sameDevice key

def usage (s : CacheState) (device : Option ResourceKey) (onlyQuarantine : Bool) :
    TransferResourceUsage :=
  if onlyQuarantine then usageOf ((s.onDevice device).filter Entry.quarantined)
  else usageOf (s.onDevice device)

/-- Whether the device of a key has quarantined work. -/
def disabled (s : CacheState) (key : ResourceKey) : Bool :=
  (s.usage (some key) true).quarantined ≠ 0

end CacheState

/-! ### Admission -/

def liveLimit (limits : TransferResourceLimits) : Nat :=
  limits.maxLiveStagingBytes.getD (2 ^ 64 - 1)

/-- The bytes a request adds: all of them, or what growing an entry adds to it. -/
def addedBytes (r : CacheRequest) : Option Entry → Int
  | none => r.bytes
  | some e => r.bytes - e.bytes

def addedContexts : Option Entry → Int
  | none => 1
  | some _ => 0

def addedWorkers (r : CacheRequest) : Option Entry → Int
  | none => r.workers
  | some _ => 0

def addedRetained (r : CacheRequest) (grow : Option Entry) : Int :=
  if r.cacheable then addedBytes r grow else 0

def fits (limits : TransferResourceLimits) (r : CacheRequest) (grow : Option Entry)
    (all device : TransferResourceUsage) : Bool :=
  !exceeds all.contexts (addedContexts grow) limits.maxContexts &&
  !exceeds device.contexts (addedContexts grow) limits.maxContextsPerDevice &&
  !exceeds (workers all) (addedWorkers r grow) limits.maxBackgroundWorkers &&
  !exceeds (retained all) (addedRetained r grow) limits.maxRetainedBytes &&
  !exceeds (live all) (addedBytes r grow) (liveLimit limits)

/-- The first of the best entries of a list. -/
def pickFrom (better : Entry → Entry → Bool) : Option Entry → List Entry → Option Entry
  | best, [] => best
  | none, e :: rest => pickFrom better (some e) rest
  | some best, e :: rest => pickFrom better (some (if better e best then e else best)) rest

theorem mem_of_pickFrom {better : Entry → Entry → Bool} {entries : List Entry}
    {best : Option Entry} {e : Entry} (h : pickFrom better best entries = some e) :
    best = some e ∨ e ∈ entries := by
  induction entries generalizing best with
  | nil => exact .inl (by simpa [pickFrom] using h)
  | cons d rest ih =>
    cases best with
    | none =>
      rcases ih h with heq | hmem
      · exact .inr (by simp_all)
      · exact .inr (List.mem_cons_of_mem _ hmem)
    | some b =>
      rcases ih h with heq | hmem
      · split at heq
        · exact .inr (by simp_all)
        · exact .inl heq
      · exact .inr (List.mem_cons_of_mem _ hmem)

namespace CacheState

/-- The idle entries of the request's key, where it may be kept. -/
def candidates (s : CacheState) (r : CacheRequest) : List Entry :=
  if r.cacheable then s.entries.filter fun e => e.idle ∧ e.key = r.key else []

/-- The smallest candidate that is large enough. -/
def sufficient (s : CacheState) (r : CacheRequest) : Option Entry :=
  pickFrom (fun e best => e.capacity < best.capacity) none
    ((s.candidates r).filter fun e => r.slotCapacity ≤ e.capacity)

/-- The largest candidate that is too small. -/
def growable (s : CacheState) (r : CacheRequest) : Option Entry :=
  pickFrom (fun e best => best.capacity < e.capacity) none
    ((s.candidates r).filter fun e => e.capacity < r.slotCapacity)

/-- Whether evicting an entry can relieve a limit that the request meets. -/
def helps (limits : TransferResourceLimits) (r : CacheRequest) (grow : Option Entry)
    (all device : TransferResourceUsage) (e : Entry) : Bool :=
  exceeds all.contexts (addedContexts grow) limits.maxContexts ||
  (exceeds device.contexts (addedContexts grow) limits.maxContextsPerDevice &&
    e.key.sameDevice r.key) ||
  (exceeds (workers all) (addedWorkers r grow) limits.maxBackgroundWorkers && e.workers ≠ 0) ||
  (exceeds (retained all) (addedRetained r grow) limits.maxRetainedBytes && e.cacheable) ||
  exceeds (live all) (addedBytes r grow) (liveLimit limits)

/-- The idle entry, other than the one to grow, that was used longest ago and helps. -/
def victim (limits : TransferResourceLimits) (s : CacheState) (r : CacheRequest)
    (grow : Option Entry) : Option Entry :=
  pickFrom (fun e best => e.lastUse < best.lastUse) none
    (s.entries.filter fun e => grow.map Entry.id ≠ some e.id ∧ e.idle ∧
      helps limits r grow (s.usage none false) (s.usage (some r.key) false) e)

end CacheState

inductive Verdict where
  | refused (reason : TransferError)
  | hit (id : Nat)
  | grow (id : Nat)
  | miss
  | evict (id : Nat)
  | wait
deriving DecidableEq, Repr

/-- The verdict at the head of the queue. -/
def CacheState.serve (limits : TransferResourceLimits) (s : CacheState) (r : CacheRequest) :
    Verdict :=
  match s.sufficient r with
  | some e => .hit e.id
  | none =>
      let grow := s.growable r
      if fits limits r grow (s.usage none false) (s.usage (some r.key) false) then
        match grow with
        | some e => .grow e.id
        | none => .miss
      else
        match s.victim limits r grow with
        | some e => .evict e.id
        | none => .wait

/-- One round of `acquire`, for the caller with a ticket; `late` says that its deadline
    has passed. -/
def CacheState.admission (limits : TransferResourceLimits) (s : CacheState) (ticket : Nat)
    (r : CacheRequest) (waited late : Bool) : Verdict :=
  if s.closed then .refused (fail "resources_closed" "resource cache is closed")
  else if s.disabled r.key then
    .refused (fail "resources_disabled" "device has quarantined work")
  else if fits limits r none (s.usage none true) (s.usage (some r.key) true) = false then
    .refused (fail "resource_limit" "request exceeds available hard limits")
  else if waited && (late && limits.acquireTimeout.isSome) then
    .refused (fail "resource_timeout" "resource admission timed out")
  else if s.waiters.head? = some ticket then s.serve limits r
  else .wait

/-! ### What the usage adds up to -/

theorem sumOf_add (counter counter' : Entry → Int) (entries : List Entry) :
    sumOf counter entries + sumOf counter' entries =
      sumOf (fun e => counter e + counter' e) entries := by
  induction entries with
  | nil => rfl
  | cons e rest ih =>
    simp only [sumOf, List.map_cons, List.sum_cons] at ih ⊢
    omega

theorem sumOf_cast {charge : Entry → Nat} (entries : List Entry) :
    sumOf (fun e => (charge e : Int)) entries = (total charge entries : Int) := by
  induction entries with
  | nil => rfl
  | cons e rest ih =>
    simp only [sumOf, List.map_cons, List.sum_cons, total_cons] at ih ⊢
    push_cast
    omega

/-- The live bytes are the charges, whatever has been allocated of them. -/
theorem live_usageOf (entries : List Entry) :
    live (usageOf entries) = (total Entry.bytes entries : Int) := by
  rw [live, usageOf, sumOf_add, ← sumOf_cast]
  exact congrArg (fun counter => sumOf counter entries) (funext fun e => by omega)

theorem retained_usageOf (entries : List Entry) :
    retained (usageOf entries) = (total Entry.bytes (entries.filter Entry.cacheable) : Int) := by
  rw [retained, usageOf, sumOf_add, ← sumOf_cast]
  exact congrArg (fun counter => sumOf counter (entries.filter Entry.cacheable))
    (funext fun e => by omega)

theorem workers_usageOf (entries : List Entry) :
    workers (usageOf entries) = (total Entry.workers entries : Int) := by
  rw [workers, usageOf, sumOf_add, ← sumOf_cast]
  exact congrArg (fun counter => sumOf counter entries) (funext fun e => by omega)

end SymReloc.Cache
