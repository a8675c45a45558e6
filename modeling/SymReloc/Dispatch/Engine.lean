import SymReloc.Dispatch.Scratch
import SymReloc.Runs

/-!
# A typed engine as a system of calls

One engine of the typed dispatch: its context, the completion states of the groups that
were submitted to it, and the calls on the engine and on the handles.  Every call runs
under the mutex of the engine, so that an action is a whole call; giving back a lease is
an action of its own, since it happens after the unlock.  What the backend, the work of
a group and its host completions answer is a part of the action.
-/

namespace SymReloc.Dispatch

open Cache

/-! ### State -/

structure ContextKey where
  device : Int
  streams : Nat
  threads : Nat
  affinity : List Nat
deriving DecidableEq, Repr

/-- Whose buffers a context keeps alive: those of a submitted group, by its number, or
    those of a blocking call. -/
inductive Owner where
  | group (g : Nat)
  | blocking
deriving DecidableEq, Repr

structure Context where
  key : ContextKey
  backend : ScratchBackend
  owners : Option Owner
deriving DecidableEq, Repr

/-- The lease of a pool's slot: moved out of the state under the mutex, given back after
    the unlock. -/
inductive Lease where
  | absent
  | held
  | taken
  | given
deriving DecidableEq, Repr

inductive GroupCompletion where
  | pending
  | complete
  | unknown
deriving DecidableEq, Repr

/-- What is known of the work of a group.  The code keeps the completion only. -/
inductive Fate where
  | running
  | known
  | quarantined
deriving DecidableEq, Repr

/-- The completion state of a submitted group, with what the group's reports say.
    `alive` says that a handle refers to it.  The last four fields are history: the
    execution and its scratch, the host completions that were run, whether the wait for
    the event succeeded, and what is known of the work. -/
structure Submission where
  alive : Bool
  owners : Bool
  lease : Lease
  host : List Nat
  complete : Bool
  hostResult : Bool
  error : Option TransferError
  completion : GroupCompletion
  executed : Bool
  groupPending : Bool
  user : Nat
  blocks : List Nat
  ran : List Nat
  waited : Bool
  fate : Fate
deriving DecidableEq, Repr

/-- An engine.  `quarantine` keeps what was put into quarantine; `fault` says that a call
    looked for the context of a pending group and found none. -/
structure Engine where
  context : Option Context
  pending : Option Nat
  closed : Bool
  quarantined : Bool
  submissions : List Submission
  quarantine : List Context
  clock : Nat
  fault : Bool
deriving DecidableEq, Repr

structure Limits where
  retained : Nat
  live : Nat
  maxWorkers : Nat
  maxStreams : Nat
deriving DecidableEq, Repr

/-- The answers of the backend and of the host completions to a call that finishes a
    group. -/
structure Answers where
  ready : Bool
  queryFails : Bool
  waitFails : Bool
  hostError : Nat → Option TransferError
  quiesces : Bool
  finishFails : Bool
  message : String

namespace Engine

def start : Engine where
  context := none
  pending := none
  closed := false
  quarantined := false
  submissions := []
  quarantine := []
  clock := 0
  fault := false

def setSubmission (e : Engine) (g : Nat) (s : Submission) : Engine :=
  { e with submissions := e.submissions.set g s }

/-! ### Finishing a group -/

/-- Run host completions in order until one fails. -/
def runHost (hostError : Nat → Option TransferError) : List Nat → List Nat →
    List Nat × Option TransferError
  | ran, [] => (ran, none)
  | ran, k :: rest =>
      match hostError k with
      | some error => (ran ++ [k], some error)
      | none => runHost hostError (ran ++ [k]) rest

/-- The wait for the event and the host completions: what has been run, and the error. -/
def settle (c : Context) (s : Submission) (failed : Bool) (a : Answers) :
    List Nat × Option TransferError :=
  if c.backend.failed || failed || a.waitFails then
    (s.ran, some (fail "backend_failure" a.message))
  else runHost a.hostError s.ran s.host

/-- What every way of finishing leaves of the state. -/
def Submission.finished (s : Submission) (ran : List Nat) (waited : Bool)
    (error : Option TransferError) (completion : GroupCompletion) (fate : Fate) : Submission :=
  { s with
    ran, waited, error, completion, fate
    executed := error.isNone
    host := []
    complete := true
    groupPending := false }

/-- The rest of `finishLocked`, once the event is ready or to be waited for. -/
def conclude (e : Engine) (g : Nat) (s : Submission) (c : Context) (failed : Bool) (a : Answers) :
    Engine :=
  let (ran, error) := settle c s failed a
  let waited := !(c.backend.failed || failed || a.waitFails)
  if error.isSome && !a.quiesces then
    { e with
      context := none, pending := none, quarantined := true
      quarantine := e.quarantine ++ [c] }
      |>.setSubmission g (Submission.finished s ran waited
        (some (fail "completion_unknown" "asynchronous group and its owners were quarantined"))
        .unknown .quarantined)
  else if error.isSome then
    { e with context := none, pending := none }
      |>.setSubmission g (Submission.finished s ran waited error .complete .known)
  else if a.finishFails then
    { e with context := none, pending := none }
      |>.setSubmission g (Submission.finished s ran waited
        (some (fail "backend_failure" a.message)) .complete .known)
  else
    { e with
      context := some { c with owners := none, backend := c.backend.finish }
      pending := none }
      |>.setSubmission g (Submission.finished s ran waited none .complete .known)

/-- `finishLocked`: the engine after it, and whether the group is done. -/
def finishLocked (e : Engine) (g : Nat) (wait : Bool) (a : Answers) : Engine × Bool :=
  match e.submissions[g]? with
  | none => (e, true)
  | some s =>
      if s.complete then (e, true)
      else
        match e.context with
        | none => ({ e with fault := true }, true)
        | some c =>
            let failed := !wait && a.queryFails
            if !wait && !a.ready && !(c.backend.failed || failed) then (e, false)
            else (e.conclude g s c failed a, true)

/-- The error of a group, if it has one. -/
def errorOf (e : Engine) (g : Nat) : Option TransferError :=
  match e.submissions[g]? with
  | none => none
  | some s => s.error

/-- Finish the pending group, if its state is still there. -/
def finishPending (e : Engine) (a : Answers) : Engine × Option TransferError :=
  match e.pending with
  | none => (e, none)
  | some g =>
      match e.submissions[g]? with
      | none => (e, none)
      | some s =>
          if s.alive then
            let e := (e.finishLocked g true a).1
            (e, e.errorOf g)
          else (e, none)

/-! ### Executing -/

end Engine

/-- A request or a group with its options, and how its work goes: the scratch it asks
    for with the answers of the allocator, whether it leaves the backend failed, the error
    it ends with, whether its event cannot be recorded, and what the backend says at its
    end. -/
structure Work where
  inCallback : Bool
  key : ContextKey
  options : ScratchOptions
  consumed : Bool
  made : Bool
  allocations : List (Nat × Bool × Option Nat)
  host : Nat
  hostResult : Bool
  breaks : Bool
  error : Option TransferError
  recordFails : Bool
  quiesces : Bool
  finishFails : Bool
deriving DecidableEq, Repr

/-- The scratch that work takes, with the addresses it got. -/
def allocateAll (user : Nat) : ScratchBackend → List (Nat × Bool × Option Nat) →
    ScratchBackend × List Nat
  | s, [] => (s, [])
  | s, (bytes, device, answer) :: rest =>
      match s.allocate user bytes device answer with
      | (s, none) => allocateAll user s rest
      | (s, some pointer) =>
          let (s, pointers) := allocateAll user s rest
          (s, pointer :: pointers)

namespace Engine

variable (limits : Limits)

def admits (w : Work) : Bool :=
  w.key.threads - 1 ≤ limits.maxWorkers ∧ 1 ≤ w.key.streams ∧ w.key.streams ≤ limits.maxStreams

/-- The context of the key, kept or made. -/
def contextFor (e : Engine) (w : Work) : Option Context :=
  match e.context with
  | some c => if c.key = w.key then some c else fresh
  | none => fresh
where
  fresh : Option Context :=
    if w.made then
      some
        { key := w.key
          backend :=
            { blocks := [], retainedLimit := limits.retained, liveLimit := limits.live,
              options := w.options, failed := false }
          owners := none }
    else none

/-- The context while the work runs. -/
def launch (e : Engine) (c : Context) (owner : Owner) (w : Work) : Context × List Nat :=
  let (backend, pointers) := allocateAll e.clock (c.backend.start w.options) w.allocations
  ({ c with
      owners := some owner
      backend := { backend with failed := backend.failed || w.breaks } }, pointers)

/-- What is left of a context whose work failed. -/
def dismiss (e : Engine) (c : Context) (w : Work) : Engine :=
  if w.quiesces then { e with context := none }
  else { e with context := none, quarantined := true, quarantine := e.quarantine ++ [c] }

/-- `execute`: a blocking call. -/
def execute (e : Engine) (w : Work) (a : Answers) : Engine :=
  if w.inCallback || !admits limits w then e
  else
    let (e, error) := e.finishPending a
    if error.isSome || w.consumed || e.quarantined || e.closed then e
    else
      match e.contextFor limits w with
      | none => { e with context := none }
      | some c =>
          let (c, _) := e.launch c .blocking w
          let e := { e with clock := e.clock + 1 }
          if w.error.isSome then e.dismiss c w
          else if c.backend.failed || w.finishFails then { e with context := none }
          else { e with context := some { c with owners := none, backend := c.backend.finish } }

/-- The error of a submission: that of its work, or of recording its event. -/
def submitError (c : Context) (w : Work) : Bool :=
  w.error.isSome || w.recordFails || c.backend.failed

/-- `submit`, with a lease where the engine is a slot of a pool. -/
def submit (e : Engine) (w : Work) (leased : Bool) (a : Answers) : Engine :=
  if w.inCallback || !admits limits w then e
  else
    let (e, error) := e.finishPending a
    if error.isSome || w.consumed || e.quarantined || e.closed then e
    else
      match e.contextFor limits w with
      | none => { e with context := none }
      | some c =>
          let g := e.submissions.length
          let (c, pointers) := e.launch c (.group g) w
          let user := e.clock
          let e := { e with clock := e.clock + 1 }
          if submitError c w then e.dismiss c w
          else
            { e with
              context := some c
              pending := some g
              submissions := e.submissions ++
                [{ alive := true, owners := true, lease := if leased then .held else .absent,
                   host := List.range w.host, complete := false, hostResult := w.hostResult,
                   error := none, completion := .pending, executed := false, groupPending := true,
                   user, blocks := pointers, ran := [], waited := false, fate := .running }] }

/-! ### Handles -/

/-- Move the lease out of the state of a group. -/
def takeLease (e : Engine) (g : Nat) : Engine :=
  match e.submissions[g]? with
  | none => e
  | some s =>
      e.setSubmission g { s with lease := if s.lease = .held then .taken else s.lease }

/-- `Completion::wait`. -/
def wait (e : Engine) (g : Nat) (inCallback : Bool) (a : Answers) : Engine :=
  if inCallback then e else (e.finishLocked g true a).1.takeLease g

/-- `Completion::query`. -/
def query (e : Engine) (g : Nat) (inCallback : Bool) (a : Answers) : Engine :=
  if inCallback then e
  else
    match e.finishLocked g false a with
    | (e, true) => e.takeLease g
    | (e, false) => e

/-- `Completion::waitStream`; `ordered` says that the stream could be made to wait. -/
def waitStream (e : Engine) (g : Nat) (inCallback ordered : Bool) : Engine :=
  if inCallback then e
  else
    match e.submissions[g]? with
    | none => e
    | some s =>
        if s.hostResult || s.complete then e
        else
          match e.context with
          | none => { e with fault := true }
          | some c =>
              if ordered then e
              else
                { e with
                  context := some { c with backend := { c.backend with failed := true } } }

/-- The state goes with its last handle: its owners, its host completions and its lease. -/
def drop (e : Engine) (g : Nat) : Engine :=
  match (e.takeLease g).submissions[g]? with
  | none => e
  | some s => (e.takeLease g).setSubmission g { s with alive := false, owners := false, host := [] }

/-- `~Completion` of the last handle. -/
def destroy (e : Engine) (g : Nat) (inCallback : Bool) (a : Answers) : Engine :=
  (e.wait g inCallback a).drop g

/-- The lease that a call has taken goes back to the pool. -/
def giveLease (e : Engine) (g : Nat) : Engine :=
  match e.submissions[g]? with
  | none => e
  | some s => e.setSubmission g { s with lease := if s.lease = .taken then .given else s.lease }

/-! ### Maintenance -/

def clear (e : Engine) (inCallback : Bool) (a : Answers) : Engine :=
  if inCallback || e.quarantined || e.closed then e
  else
    match e.finishPending a with
    | (e, some _) => e
    | (e, none) => { e with context := none }

def close (e : Engine) (inCallback : Bool) (a : Answers) : Engine :=
  if inCallback then e
  else
    let e := { e with closed := true }
    if e.quarantined then e
    else
      match e.finishPending a with
      | (e, some _) => e
      | (e, none) => { e with context := none }

/-- A handle of a group is still there. -/
def alive (e : Engine) (g : Nat) : Bool :=
  match e.submissions[g]? with
  | none => false
  | some s => s.alive

end Engine

inductive Action where
  | execute (w : Work) (a : Answers)
  | submit (w : Work) (leased : Bool) (a : Answers)
  | wait (g : Nat) (inCallback : Bool) (a : Answers)
  | query (g : Nat) (inCallback : Bool) (a : Answers)
  | waitStream (g : Nat) (inCallback ordered : Bool)
  | destroy (g : Nat) (inCallback : Bool) (a : Answers)
  | giveLease (g : Nat)
  | clear (inCallback : Bool) (a : Answers)
  | close (inCallback : Bool) (a : Answers)

def step (limits : Limits) (e : Engine) : Action → Option Engine
  | .execute w a => some (e.execute limits w a)
  | .submit w leased a => some (e.submit limits w leased a)
  | .wait g inCallback a => if e.alive g then some (e.wait g inCallback a) else none
  | .query g inCallback a => if e.alive g then some (e.query g inCallback a) else none
  | .waitStream g inCallback ordered =>
      if e.alive g then some (e.waitStream g inCallback ordered) else none
  | .destroy g inCallback a => if e.alive g then some (e.destroy g inCallback a) else none
  | .giveLease g => some (e.giveLease g)
  | .clear inCallback a => some (e.clear inCallback a)
  | .close inCallback a => some (e.close inCallback a)

def system (limits : Limits) : System Engine Action where
  initial := fun e => e = .start
  step := step limits

end SymReloc.Dispatch
