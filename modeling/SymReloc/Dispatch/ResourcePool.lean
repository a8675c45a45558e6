import Mathlib.Algebra.Order.Ring.Int
import SymReloc.Runs

/-!
# The contexts of typed dispatch

The pool of single-context engines: a slot for each, with its share of the budgets.  A call
takes a ticket and waits until its ticket is the first and a slot can serve its key; the slot
is leased until the lease is destroyed.  `clear` and `close` wait for every lease and then go
through the slots.

A step is what one thread does while it holds the pool's mutex.
-/

namespace SymReloc.Dispatch.Pool

/-! ### State -/

structure Key where
  device : Int
  streams : Int
  threads : Nat
  borrowedWorkers : Nat
  affinity : List Nat
deriving DecidableEq, Repr

/-- A single-context engine, as far as its pool asks. -/
structure Engine where
  quarantined : Bool
deriving DecidableEq, Repr

/-- `pending` says that an unfinished group's completion can be had from the slot;
    `completed` is the last snapshot of the engine's `quarantined`. -/
structure Slot where
  resources : Option Engine
  key : Option Key
  pending : Bool
  completed : Bool
  active : Bool
  lastUse : Nat
  retained : Nat
  live : Nat
  workers : Nat
  streams : Nat
deriving DecidableEq, Repr

/-- Where a queued call is: about to look at the slots, or outside the mutex with the
    completion of a slot. -/
inductive Phase where
  | waiting
  | progressing (slot : Nat)
deriving DecidableEq, Repr

structure Waiter where
  ticket : Nat
  key : Key
  counted : Bool
  phase : Phase
deriving DecidableEq, Repr

/-- `clear` or `close`. -/
structure Drain where
  call : Nat
  close : Bool
deriving DecidableEq, Repr

structure Grant where
  ticket : Nat
  device : Int
  slot : Nat
deriving DecidableEq, Repr

/-- `drains` are the calls that wait for another to end, `draining` the one that set
    `clearing`.  `leases`, the slots of the leases alive, and `granted`, in order, are
    history. -/
structure State where
  slots : List Slot
  waiters : List Waiter
  perDevice : Nat
  active : Nat
  peakActive : Nat
  clock : Nat
  waits : Nat
  evictions : Nat
  timeout : Option Nat
  closed : Bool
  clearing : Bool
  quarantined : Bool
  drains : List Drain
  draining : Option Drain
  leases : List Nat
  granted : List Grant
deriving DecidableEq, Repr

/-! ### Quotas -/

/-- The part of a total that the context at an index gets. -/
def share (total count index : Nat) : Nat := total / count + if index < total % count then 1 else 0

structure Limits where
  retained : Nat
  live : Nat
  workers : Nat
  streams : Nat
  contexts : Nat
  perDevice : Nat
  timeout : Option Nat
deriving DecidableEq, Repr

/-- What the constructor accepts. -/
def Limits.Valid (l : Limits) : Prop :=
  l.contexts ≠ 0 ∧ l.perDevice ≠ 0 ∧ l.perDevice ≤ l.contexts ∧ l.contexts ≤ l.streams ∧
    (l.live ≠ 0 → l.contexts ≤ l.live) ∧ ∀ timeout ∈ l.timeout, timeout ≤ (2 ^ 63 - 1) / 2000000

instance (l : Limits) : Decidable l.Valid := inferInstanceAs (Decidable (_ ∧ _))

def Limits.slot (l : Limits) (i : Nat) : Slot where
  resources := none
  key := none
  pending := false
  completed := false
  active := false
  lastUse := 0
  retained := share l.retained l.contexts i
  live := share l.live l.contexts i
  workers := share l.workers l.contexts i
  streams := share l.streams l.contexts i

def start (l : Limits) : State where
  slots := (List.range l.contexts).map l.slot
  waiters := []
  perDevice := l.perDevice
  active := 0
  peakActive := 0
  clock := 0
  waits := 0
  evictions := 0
  timeout := l.timeout
  closed := false
  clearing := false
  quarantined := false
  drains := []
  draining := none
  leases := []
  granted := []

/-! ### Admission -/

def Slot.fits (s : Slot) (key : Key) : Bool :=
  0 < key.streams && key.streams ≤ s.streams &&
    (key.threads + (2 ^ 32 - 1) + key.borrowedWorkers) % 2 ^ 32 ≤ s.workers

def Slot.onDevice (s : Slot) (device : Int) : Bool := s.key.any fun key => key.device = device

namespace State

/-- How many slots are keyed to a device. -/
def deviceCount (p : State) (device : Int) : Nat := p.slots.countP fun s => s.onDevice device

/-- Whether a slot comes before the choice so far: an unkeyed one does, else the one that was
    used longer ago. -/
def better (s : Slot) : Option (Nat × Slot) → Bool
  | none => true
  | some (_, best) => s.key = none || (best.key ≠ none && s.lastUse < best.lastUse)

/-- Choose among the slots from an index on; a slot of the very key ends the search. -/
def choose (key : Key) (full : Bool) : Nat → List Slot → Option (Nat × Slot) → Option (Nat × Slot)
  | _, [], choice => choice
  | i, s :: rest, choice =>
      if s.active || !s.fits key then choose key full (i + 1) rest choice
      else if s.key = some key then some (i, s)
      else if full && !s.onDevice key.device then choose key full (i + 1) rest choice
      else if better s choice then choose key full (i + 1) rest (some (i, s))
      else choose key full (i + 1) rest choice

/-- The slot that serves a key, if any. -/
def choice (p : State) (key : Key) : Option (Nat × Slot) :=
  choose key (p.perDevice ≤ p.deviceCount key.device) 0 p.slots none

/-- The completion to progress: that of the slot that was leased first, among those whose
    return can help. -/
def oldest (key : Key) (full : Bool) : Nat → List Slot → Option (Nat × Nat) → Option (Nat × Nat)
  | _, [], found => found
  | i, s :: rest, found =>
      if s.active && (found.all fun f => s.lastUse < f.2) && (!full || s.onDevice key.device) &&
          s.pending then
        oldest key full (i + 1) rest (some (i, s.lastUse))
      else oldest key full (i + 1) rest found

def progress (p : State) (key : Key) : Option Nat :=
  (oldest key (p.perDevice ≤ p.deviceCount key.device) 0 p.slots none).map Prod.fst

/-- `remove`: the ticket leaves the queue. -/
def remove (p : State) (ticket : Nat) : State :=
  { p with waiters := p.waiters.filter fun w => w.ticket ≠ ticket }

def setSlot (p : State) (i : Nat) (s : Slot) : State := { p with slots := p.slots.set i s }

def setWaiter (p : State) (w : Waiter) : State :=
  { p with waiters := p.waiters.map fun v => if v.ticket = w.ticket then w else v }

/-- The call of a ticket. -/
def waiter (p : State) (ticket : Nat) : Option Waiter :=
  p.waiters.find? fun w => w.ticket = ticket

end State

/-- What may throw when a slot is about to be leased. -/
inductive Trouble where
  | none
  | engine
  | lease
deriving DecidableEq, Repr

namespace State

/-- The slot is keyed, active and leased. -/
def grant (p : State) (w : Waiter) (i : Nat) (s : Slot) : State :=
  { p with
    slots := p.slots.set i
      { s with key := some w.key, active := true, lastUse := p.clock + 1 }
    waiters := p.waiters.filter fun v => v.ticket ≠ w.ticket
    active := p.active + 1
    peakActive := max (p.active + 1) p.peakActive
    clock := p.clock + 1
    evictions := if s.key.any (· ≠ w.key) then p.evictions + 1 else p.evictions
    leases := i :: p.leases
    granted := p.granted ++ [{ ticket := w.ticket, device := w.key.device, slot := i }] }

/-- Lease a slot, creating its engine at first; what throws leaves it as it was. -/
def lease (p : State) (w : Waiter) (i : Nat) (s : Slot) (trouble : Trouble) : State :=
  if s.resources = none ∧ trouble = .engine then p.remove w.ticket
  else
    let s := { s with resources := some (s.resources.getD { quarantined := false }) }
    if trouble = .lease then (p.setSlot i s).remove w.ticket else p.grant w i s

/-- The end of a round without a slot: count the wait, give up when it is late, or see to a
    completion. -/
def pause (p : State) (w : Waiter) (pending : Option Nat) (late : Bool) : State :=
  let p := if w.counted then p else { p with waits := p.waits + 1 }
  if p.timeout ≠ none ∧ late then p.remove w.ticket
  else
    p.setWaiter { w with
      counted := true
      phase := match pending with
        | none => .waiting
        | some i => .progressing i }

/-- One round of `acquire`, under the mutex. -/
def round (p : State) (w : Waiter) (late : Bool) (trouble : Trouble) : State :=
  if p.closed || p.quarantined then p.remove w.ticket
  else if !p.clearing && p.waiters.head?.map Waiter.ticket = some w.ticket then
    match p.choice w.key with
    | some (i, s) => p.lease w i s trouble
    | none => p.pause w (p.progress w.key) late
  else p.pause w none late

end State

/-- What a call learns of a completion outside the mutex. -/
inductive Progress where
  | done
  | notYet
  | failed
deriving DecidableEq, Repr

namespace State

/-- Back from a completion; a wait without a timeout ends only when the work is done. -/
def progressed (p : State) (w : Waiter) (result : Progress) : Option State :=
  match result with
  | .failed => some (p.remove w.ticket)
  | .done => some (p.setWaiter { w with phase := .waiting })
  | .notYet => if p.timeout = none then none else some (p.setWaiter { w with phase := .waiting })

/-- A call that some slot could serve takes a ticket. -/
def arrive (p : State) (key : Key) : State :=
  if p.slots.any fun s => s.fits key then
    { p with
      clock := p.clock + 1
      waiters := p.waiters ++
        [{ ticket := p.clock + 1, key, counted := false, phase := .waiting }] }
  else p

/-! ### Leases -/

def Slot.ended (s : Slot) (now : Nat) : Slot :=
  { s with
    pending := false
    active := false
    lastUse := now
    completed := s.resources.any Engine.quarantined }

/-- `release`: the lease of a slot is destroyed. -/
def release (p : State) (i : Nat) (s : Slot) : State :=
  { p with
    slots := p.slots.set i (Slot.ended s (p.clock + 1))
    active := p.active - 1
    clock := p.clock + 1
    quarantined := p.quarantined || s.resources.any Engine.quarantined
    leases := p.leases.erase i }

/-! ### Clearing -/

/-- What `drain` does to a slot: a slot of an engine that is not quarantined loses its key. -/
def settled (s : Slot) : Slot :=
  match s.resources with
  | none => s
  | some engine =>
      { s with completed := engine.quarantined, key := if engine.quarantined then s.key else none }

/-- Go through the first slots, all of them unless one throws. -/
def settle (p : State) (upto : Nat) : State :=
  { p with
    slots := (p.slots.take upto).map settled ++ p.slots.drop upto
    quarantined := p.quarantined ||
      (p.slots.take upto).any fun s => s.resources.any Engine.quarantined
    clearing := false
    draining := none }

/-- A drain that waited comes to its turn. -/
def enter (p : State) (d : Drain) : State :=
  let p := { p with drains := p.drains.erase d }
  if p.closed && !d.close then p else { p with clearing := true, draining := some d }

end State

inductive Action where
  | arrive (key : Key)
  | round (ticket : Nat) (late : Bool) (trouble : Trouble)
  | progressed (ticket : Nat) (result : Progress)
  | submitted (slot : Nat)
  | expire (slot : Nat)
  | quarantine (slot : Nat)
  | release (slot : Nat)
  | drain (d : Drain)
  | enter (d : Drain)
  | settle (upto : Nat)
  | abandon
deriving DecidableEq, Repr

/-- `submitted`, `quarantine` and `release` are for who holds the slot's lease; `expire` is the
    end of a completion that a slot only refers to; `abandon` is a drain that throws. -/
def step (p : State) : Action → Option State
  | .arrive key => some (p.arrive key)
  | .round ticket late trouble =>
      match p.waiter ticket with
      | some w => if w.phase = .waiting then some (p.round w late trouble) else none
      | none => none
  | .progressed ticket result =>
      match p.waiter ticket with
      | some w => if w.phase = .waiting then none else p.progressed w result
      | none => none
  | .submitted i =>
      match p.slots[i]? with
      | some s => if i ∈ p.leases then some (p.setSlot i { s with pending := true }) else none
      | none => none
  | .expire i =>
      match p.slots[i]? with
      | some s => some (p.setSlot i { s with pending := false })
      | none => none
  | .quarantine i =>
      match p.slots[i]? with
      | some s =>
          if i ∈ p.leases then
            some (p.setSlot i { s with resources := some { quarantined := true } })
          else none
      | none => none
  | .release i =>
      match p.slots[i]? with
      | some s => if i ∈ p.leases then some (p.release i s) else none
      | none => none
  | .drain d => some { p with closed := p.closed || d.close, drains := p.drains ++ [d] }
  | .enter d => if d ∈ p.drains ∧ p.clearing = false then some (p.enter d) else none
  | .settle upto =>
      if p.draining ≠ none ∧ p.active = 0 then some (p.settle upto) else none
  | .abandon =>
      if p.draining ≠ none then some { p with clearing := false, draining := none } else none

/-- The pool of some limits. -/
def system (l : Limits) : System State Action where
  initial := fun p => l.Valid ∧ p = start l
  step := step

end SymReloc.Dispatch.Pool
