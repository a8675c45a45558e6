import SymReloc.Runtime.Transfer

/-!
# Requests to the resource cache

What the cache knows of a transfer: the key under which its resources are kept, the
staging it needs, rounded up, and the charges.  A key fixes the number of slots and
the number of owned workers, which is what lets an entry of the same key serve the
request.
-/

namespace SymReloc.Cache

open Outcome

/-! ### Keys -/

inductive WorkerMode where
  | inline
  | owned
  | borrowed
deriving DecidableEq, Repr

structure TransferBackendConfig where
  kind : MemoryKind
  device : Int
  streams : Int
  pinned : Bool
deriving DecidableEq, Repr

structure ResourceKey where
  backend : TransferBackendConfig
  direction : TransferDirection
  activeSlots : Nat
  workers : WorkerMode
  participants : Nat
  placementTag : Nat
  affinity : List Nat
deriving DecidableEq, Repr

def ResourceKey.sameDevice (key other : ResourceKey) : Bool :=
  key.backend.kind = other.backend.kind ∧ key.backend.device = other.backend.device

/-- The workers that a context of this key owns. -/
def ResourceKey.ownedWorkers (key : ResourceKey) : Nat :=
  match key.workers with
  | .borrowed => 0
  | .owned => key.participants - 1
  | .inline => key.participants - 1

theorem ResourceKey.sameDevice_comm (key other : ResourceKey) :
    key.sameDevice other = other.sameDevice key := by
  simp [sameDevice, eq_comm]

theorem ResourceKey.sameDevice_congr {key other : ResourceKey} (h : key.sameDevice other = true)
    (third : ResourceKey) : key.sameDevice third = other.sameDevice third := by
  simp only [sameDevice, decide_eq_true_eq] at h
  simp [sameDevice, h.1, h.2]

/-! ### Limits and options -/

structure TransferResourceLimits where
  maxRetainedBytes : Nat
  maxContexts : Nat
  maxContextsPerDevice : Nat
  maxBackgroundWorkers : Nat
  maxLiveStagingBytes : Option Nat
  acquireTimeout : Option Nat
deriving DecidableEq, Repr

inductive PinningPolicy where
  | auto
  | pinned
  | pageable
deriving DecidableEq, Repr

structure StagingDecision where
  policy : PinningPolicy
  pinned : Bool
  retentionEligible : Bool
  wireBytes : Nat
  threshold : Option Nat
  reason : String
deriving DecidableEq, Repr

/-- The answer of `selectStaging`: whether to pin, and why. -/
def pinning (policy : PinningPolicy) (minPinnedBytes : Option Nat) (wireBytes : Nat)
    (retainable : Bool) : Bool × String :=
  match policy, minPinnedBytes with
  | .pinned, _ => (true, "forced_pinned")
  | .pageable, _ => (false, "forced_pageable")
  | .auto, none => (false, "unconfigured_threshold")
  | .auto, some threshold =>
      if retainable = false then (false, "ephemeral_staging")
      else if wireBytes < threshold then (false, "below_threshold")
      else (true, "configured_size_gate")

def selectStaging (policy : PinningPolicy) (minPinnedBytes : Option Nat) (wireBytes : Nat)
    (retainable : Bool) : StagingDecision where
  policy := policy
  pinned := (pinning policy minPinnedBytes wireBytes retainable).1
  retentionEligible := retainable
  wireBytes := wireBytes
  threshold := minPinnedBytes
  reason := (pinning policy minPinnedBytes wireBytes retainable).2

/-- A gather pool of the caller, known by its address. -/
structure BorrowedPool where
  address : Nat
  threadCount : Nat
  closed : Bool
deriving DecidableEq, Repr

structure CachedTransferOptions where
  nBuffers : Int
  chunkSizeOverride : Nat
  gatherThreads : Nat
  /-- The raw pool of the transfer options. -/
  rawGather : Option Nat
  pinning : PinningPolicy
  minPinnedBytes : Option Nat
  backend : TransferBackendConfig
  gather : Option BorrowedPool
  placementTag : Nat
deriving DecidableEq, Repr

def CachedTransferOptions.transfer (options : CachedTransferOptions) : TransferOptions where
  nBuffers := options.nBuffers
  chunkSizeOverride := options.chunkSizeOverride
  gatherThreads := options.gatherThreads
  gather := options.gather.map BorrowedPool.threadCount

/-! ### The request of the cache -/

/-- What a transfer asks of the cache, with the relations between its fields. -/
structure CacheRequest where
  execution : TransferRequirements
  key : ResourceKey
  slotCapacity : Nat
  bytes : Nat
  workers : Nat
  cacheable : Bool
  staging : StagingDecision
  slots_eq : execution.activeSlots = key.activeSlots
  threads_eq : execution.gatherThreads - 1 = workers
  workers_eq : workers = key.ownedWorkers
  bytes_eq : bytes = slotCapacity * key.activeSlots
  bytes_lt : bytes < 2 ^ 64
deriving DecidableEq

def quantum : Nat := 256 * 2 ^ 10

def roundStagingCapacity (bytes : Nat) : Outcome TransferError Nat :=
  if bytes = 0 ∨ 2 ^ 64 - 1 - (quantum - 1) < bytes then
    .error (fail "integer_overflow" "rounded staging capacity overflows")
  else .ok ((bytes + (quantum - 1)) / quantum * quantum)

def checkBackendConfig (backend : TransferBackendConfig) : Outcome TransferError Unit :=
  require (¬ (backend.streams < 1 ∨ (backend.kind = .host ∧ backend.device ≠ -1) ∨
      (backend.kind = .cuda ∧ backend.device < 0)))
    (fail "invalid_options" "invalid backend configuration")

def deviceView (request : TransferRequest) : BufferView :=
  if request.direction = .hostToDevice then request.destination else request.source

def checkViewDevice (backend : TransferBackendConfig) (view : BufferView) :
    Outcome TransferError Unit :=
  require (¬ (view.kind = .cuda ∧ (backend.kind ≠ .cuda ∨ view.device ≠ backend.device)))
    (fail "device_mismatch" "view does not belong to cache device")

def checkGatherOwner (options : CachedTransferOptions) : Outcome TransferError Unit :=
  require (¬ ((options.rawGather ≠ none ∧
        options.rawGather ≠ options.gather.map BorrowedPool.address) ∨
      (options.gather.map BorrowedPool.closed) = some true))
    (fail "invalid_options" "borrowed gather pool needs a live shared owner")

/-- The owned workers of a description: none beside a borrowed pool. -/
def workerMode (options : CachedTransferOptions) (gatherThreads : Nat) : WorkerMode :=
  if options.gather.isSome then .borrowed
  else if gatherThreads - 1 = 0 then .inline
  else .owned

def participants (options : CachedTransferOptions) (gatherThreads : Nat) : Nat :=
  match options.gather with
  | some pool => pool.threadCount
  | none => gatherThreads

def stagingDecision (options : CachedTransferOptions) (wireBytes : Nat) (cacheable : Bool) :
    StagingDecision :=
  let decision := selectStaging options.pinning options.minPinnedBytes wireBytes cacheable
  if options.backend.kind = .host then
    { decision with pinned := false, reason := "host_backend" }
  else decision

/-- A borrowed pool leaves the calling thread as the only one. -/
theorem describeTransfer_gather {hardwareThreads : Nat} {request : TransferRequest}
    {options : TransferOptions} {r : TransferRequirements}
    (h : describeTransfer hardwareThreads request options = .ok r)
    (hgather : options.gather.isSome) : r.gatherThreads = 1 := by
  simp only [describeTransfer, bind_ok_iff, exists_unit, require_eq_ok, pure_eq,
    Outcome.ok.injEq] at h
  obtain ⟨_, _, _, _, _, _, _, _, _, _, _, _, _, _, _, _, rfl⟩ := h
  simp [hgather]

/-- The owned workers of a key are those of the description it was made from. -/
theorem workers_described {options : CachedTransferOptions} {gatherThreads : Nat}
    {key : ResourceKey} (hgather : options.gather.isSome → gatherThreads = 1)
    (hmode : key.workers = workerMode options gatherThreads)
    (hparticipants : key.participants = participants options gatherThreads) :
    gatherThreads - 1 = key.ownedWorkers := by
  cases hg : options.gather with
  | some pool =>
    have hone := hgather (by simp [hg])
    simp [ResourceKey.ownedWorkers, hmode, workerMode, hg, hone]
  | none =>
    have hthreads : key.participants = gatherThreads := by simp [hparticipants, participants, hg]
    have hnot : key.workers ≠ .borrowed := by
      rw [hmode]
      simp only [workerMode, hg, Option.isSome_none, Bool.false_eq_true, if_false]
      split <;> decide
    unfold ResourceKey.ownedWorkers
    cases hkey : key.workers with
    | borrowed => exact absurd hkey hnot
    | owned => simp [hthreads]
    | inline => simp [hthreads]

/-- `describeCachedTransfer`, for a thread with this affinity mask.  The destination
    bytes are a field of the request that the layout path does not read. -/
def describeCachedTransfer (hardwareThreads : Nat) (affinity : List Nat)
    (request : TransferRequest) (destinationBytes : Nat) (options : CachedTransferOptions)
    (limits : TransferResourceLimits) : Outcome TransferError CacheRequest := do
  checkBackendConfig options.backend
  require ((deviceView request).kind = options.backend.kind)
    (fail "device_mismatch" "transfer storage and backend kinds differ")
  checkViewDevice options.backend request.source
  checkViewDevice options.backend request.destination
  checkGatherOwner options
  match hr : describeTransfer hardwareThreads request options.transfer with
  | .error reason => .error reason
  | .fault kind => .fault kind
  | .ok r => do
      let slotCapacity ← roundStagingCapacity r.slotBytes
      if hbytes : slotCapacity * r.activeSlots < 2 ^ 64 then
        let bytes := slotCapacity * r.activeSlots
        let cacheable : Bool := bytes ≤ limits.maxRetainedBytes
        let wireBytes :=
          if request.direction = .hostToDevice then destinationBytes else r.sourceBytes
        let staging := stagingDecision options wireBytes cacheable
        pure {
          execution := r
          key := {
            backend := { options.backend with pinned := staging.pinned }
            direction := request.direction
            activeSlots := r.activeSlots
            workers := workerMode options r.gatherThreads
            participants := participants options r.gatherThreads
            placementTag := options.placementTag
            affinity := affinity }
          slotCapacity, bytes, cacheable, staging
          workers := r.gatherThreads - 1
          slots_eq := rfl
          threads_eq := rfl
          workers_eq := workers_described (fun hgather => describeTransfer_gather hr
            (by simpa [CachedTransferOptions.transfer] using hgather)) rfl rfl
          bytes_eq := rfl
          bytes_lt := hbytes }
      else .error (fail "integer_overflow" "rounded staging ring overflows")

end SymReloc.Cache
