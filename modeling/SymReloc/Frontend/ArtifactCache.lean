import SymReloc.OrderedTable
import SymReloc.Runs

/-!
# The artifact cache

`ArtifactCache.get_or_compile`: an LRU table of compiled artifacts, a table of explicit
rejections and a set of keys that are being compiled, under one lock.  A compile runs outside
the lock, so a call takes three steps: it looks at the tables, its compile ends, and it
publishes what came of it.  Callers that find their key pending wait, and look again after the
next publication.
-/

namespace SymReloc.ArtifactCache

open OrderedTable

/-- What comes of a compile: `UnsupportedRecipe` is a rejection, every other exception a
    failure. -/
inductive Result (ν ρ ε : Type) where
  | compiled (artifact : ν)
  | rejected (reason : ρ)
  | failed (error : ε)
deriving DecidableEq, Repr

/-- The result is kept for other callers. -/
def Result.lasting {ν ρ ε : Type} : Result ν ρ ε → Bool
  | .compiled _ | .rejected _ => true
  | .failed _ => false

/-- Where a call is.  `entering` will take the lock and look at the tables; `publishing` has a
    compile that ended, and will take the lock. -/
inductive Phase (ν ρ ε : Type) where
  | entering
  | waiting
  | compiling
  | publishing (result : Result ν ρ ε)
  | returned (result : Result ν ρ ε)
deriving DecidableEq, Repr

/-- The compile of a call. -/
inductive Compile (ν ρ ε : Type) where
  | none
  | running
  | ended (result : Result ν ρ ε)
deriving DecidableEq, Repr

/-- `compile` and `waited`, the calls whose compiles this one found pending, are history. -/
structure Call (κ ν ρ ε : Type) where
  key : κ
  phase : Phase ν ρ ε
  compile : Compile ν ρ ε
  waited : List Nat
deriving DecidableEq, Repr

variable {κ ν ρ ε : Type}

/-- The call has its key marked as pending. -/
def Call.holds (call : Call κ ν ρ ε) : Bool :=
  match call.phase with
  | .compiling | .publishing _ => true
  | _ => false

/-- `notify_all`, for one caller. -/
def Call.notified (call : Call κ ν ρ ε) : Call κ ν ρ ε :=
  match call.phase with
  | .waiting => { call with phase := .entering }
  | _ => call

structure State (κ ν ρ ε : Type) where
  capacity : Nat
  entries : List (κ × ν)
  rejections : List (κ × ρ)
  pending : List κ
  calls : List (Call κ ν ρ ε)
deriving DecidableEq, Repr

def start (capacity : Nat) : State κ ν ρ ε where
  capacity := capacity
  entries := []
  rejections := []
  pending := []
  calls := []

inductive Action (κ ν ρ ε : Type) where
  | call (key : κ)
  | examine (c : Nat)
  | finish (c : Nat) (result : Result ν ρ ε)
  | publish (c : Nat)
deriving DecidableEq, Repr

namespace State

variable [DecidableEq κ]

/-- The call that compiles a key. -/
def compiler (s : State κ ν ρ ε) (key : κ) : Option Nat :=
  s.calls.findIdx? fun call => call.key = key && call.holds

/-- One pass of the loop, under the lock. -/
def examine (s : State κ ν ρ ε) (c : Nat) (call : Call κ ν ρ ε) : State κ ν ρ ε :=
  match get? s.entries call.key with
  | some artifact =>
      { s with
        entries := moveToEnd s.entries call.key
        calls := s.calls.set c { call with phase := .returned (.compiled artifact) } }
  | none =>
      match get? s.rejections call.key with
      | some reason =>
          { s with
            rejections := moveToEnd s.rejections call.key
            calls := s.calls.set c { call with phase := .returned (.rejected reason) } }
      | none =>
          if call.key ∉ s.pending then
            { s with
              pending := call.key :: s.pending
              calls := s.calls.set c { call with phase := .compiling, compile := .running } }
          else
            { s with
              calls := s.calls.set c
                { call with
                  phase := .waiting
                  waited := call.waited ++ (s.compiler call.key).toList } }

/-- Keep a result: an artifact is moved to the end of its table, a rejection is not. -/
def keep (s : State κ ν ρ ε) (key : κ) : Result ν ρ ε → State κ ν ρ ε
  | .compiled artifact =>
      { s with entries := trim s.capacity (moveToEnd (assign s.entries key artifact) key) }
  | .rejected reason =>
      { s with rejections := trim s.capacity (assign s.rejections key reason) }
  | .failed _ => s

/-- The section after the compile: keep the result, take the mark away, wake the waiters. -/
def publish (s : State κ ν ρ ε) (c : Nat) (call : Call κ ν ρ ε) (result : Result ν ρ ε) :
    State κ ν ρ ε :=
  { s.keep call.key result with
    pending := s.pending.filter fun key => key ≠ call.key
    calls := (s.calls.set c { call with phase := .returned result }).map Call.notified }

end State

def step [DecidableEq κ] (s : State κ ν ρ ε) : Action κ ν ρ ε → Option (State κ ν ρ ε)
  | .call key =>
      some { s with
        calls := s.calls ++ [{ key, phase := .entering, compile := .none, waited := [] }] }
  | .examine c =>
      match s.calls[c]? with
      | some call =>
          match call.phase with
          | .entering => some (s.examine c call)
          | _ => none
      | none => none
  | .finish c result =>
      match s.calls[c]? with
      | some call =>
          match call.phase with
          | .compiling =>
              some { s with
                calls := s.calls.set c
                  { call with phase := .publishing result, compile := .ended result } }
          | _ => none
      | none => none
  | .publish c =>
      match s.calls[c]? with
      | some call =>
          match call.phase with
          | .publishing result => some (s.publish c call result)
          | _ => none
      | none => none

/-- A cache of some capacity; the constructor refuses zero. -/
def system [DecidableEq κ] (capacity : Nat) : System (State κ ν ρ ε) (Action κ ν ρ ε) where
  initial := fun s => 1 ≤ capacity ∧ s = start capacity
  step := step

end SymReloc.ArtifactCache
