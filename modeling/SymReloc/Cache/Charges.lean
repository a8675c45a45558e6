import SymReloc.Cache.Machine

/-!
# Charges and counters

What an entry is charged covers what it has allocated, and its counters never go below
zero: one lemma for each thing a lease can do.  What a lease does on its own leaves the
charges alone, so that the budgets are a matter of admission only.
-/

namespace SymReloc.Cache

open Ledger

/-- The events that a ring still waits for. -/
def pending (events : List Nat) : Nat := events.countP fun event => event ≠ 0

theorem pending_replicate (n : Nat) : pending (List.replicate n 0) = 0 := by
  simp [pending]

theorem pending_set_le (events : List Nat) (slot event : Nat) :
    pending (events.set slot event) ≤ pending events + if event = 0 then 0 else 1 := by
  induction events generalizing slot with
  | nil => simp [pending]
  | cons head rest ih =>
    cases slot with
    | zero =>
      simp only [pending, List.set_cons_zero, List.countP_cons]
      split <;> split <;> simp_all
    | succ slot =>
      have := ih slot
      simp only [pending, List.set_cons_succ, List.countP_cons] at this ⊢
      omega

theorem pending_clear {events : List Nat} {slot event : Nat} (hslot : events[slot]? = some event)
    (hevent : event ≠ 0) : pending (events.set slot 0) + 1 = pending events := by
  induction events generalizing slot with
  | nil => simp at hslot
  | cons head rest ih =>
    cases slot with
    | zero =>
      simp only [List.getElem?_cons_zero, Option.some.injEq] at hslot
      simp [pending, hslot, hevent]
    | succ slot =>
      have := ih (show rest[slot]? = some event by simpa using hslot)
      simp only [pending, List.set_cons_succ, List.countP_cons] at this ⊢
      omega

/-! ### Sound entries -/

/-- The charge of an entry is that of its key and capacity and covers what the entry has
    allocated; its counters are the sums of what they count. -/
structure Entry.Sound (e : Entry) : Prop where
  bytes_eq : e.bytes = e.capacity * e.key.activeSlots
  workers_eq : e.workers = e.key.ownedWorkers
  allocated_nonneg : 0 ≤ e.allocated
  allocated_le : e.allocated ≤ e.bytes
  sizes_eq : ∀ k, e.context = some k → e.allocated = (k.sizes.sum : Int)
  workers_nonneg : 0 ≤ e.allocatedWorkers
  allocatedWorkers_le : e.allocatedWorkers ≤ e.workers
  owned_le : ∀ k, e.context = some k → k.backgroundWorkers ≤ e.workers
  events_nonneg : 0 ≤ e.events
  events_ge : ∀ k pool, e.context = some k → k.staging = some pool →
    (pending pool.events : Int) ≤ e.events

theorem Entry.sound_fresh (id generation : Nat) (r : CacheRequest) :
    (Entry.fresh id generation r).Sound where
  bytes_eq := r.bytes_eq
  workers_eq := r.workers_eq
  allocated_nonneg := Int.le_refl _
  allocated_le := Int.natCast_nonneg _
  sizes_eq := by simp [fresh]
  workers_nonneg := Int.le_refl _
  allocatedWorkers_le := Int.natCast_nonneg _
  owned_le := by simp [fresh]
  events_nonneg := Int.le_refl _
  events_ge := by simp [fresh]

theorem Entry.Sound.setState {e : Entry} (h : e.Sound) (state : ResourceState) :
    (setState state e).Sound :=
  ⟨h.bytes_eq, h.workers_eq, h.allocated_nonneg, h.allocated_le, h.sizes_eq, h.workers_nonneg,
    h.allocatedWorkers_le, h.owned_le, h.events_nonneg, h.events_ge⟩

theorem Entry.Sound.use {e : Entry} (h : e.Sound) (state : ResourceState) (lastUse : Nat) :
    ({ e with state, lastUse } : Entry).Sound :=
  ⟨h.bytes_eq, h.workers_eq, h.allocated_nonneg, h.allocated_le, h.sizes_eq, h.workers_nonneg,
    h.allocatedWorkers_le, h.owned_le, h.events_nonneg, h.events_ge⟩

/-- A larger charge under the same key covers what is still allocated. -/
theorem Entry.Sound.grow {e : Entry} (h : e.Sound) {r : CacheRequest} (hkey : e.key = r.key)
    (hcapacity : e.capacity ≤ r.slotCapacity) (generation : Nat) :
    ({ e with capacity := r.slotCapacity, bytes := r.bytes, state := .building,
              generation := generation } : Entry).Sound := by
  have hbytes : e.bytes ≤ r.bytes := by
    rw [h.bytes_eq, r.bytes_eq, hkey]
    exact Nat.mul_le_mul_right _ hcapacity
  constructor
  · simpa [hkey] using r.bytes_eq
  · exact h.workers_eq
  · exact h.allocated_nonneg
  · exact Int.le_trans h.allocated_le (by simpa using hbytes)
  · exact h.sizes_eq
  · exact h.workers_nonneg
  · exact h.allocatedWorkers_le
  · exact h.owned_le
  · exact h.events_nonneg
  · exact h.events_ge

/-- A context with the same blocks, no more workers and no more pending events. -/
theorem Entry.Sound.setContext {e : Entry} (h : e.Sound) {k k' : TransferContext}
    (hk : e.context = some k) (hsizes : k'.sizes = k.sizes)
    (hworkers : k'.backgroundWorkers ≤ e.workers)
    (hevents : ∀ pool, k'.staging = some pool → (pending pool.events : Int) ≤ e.events) :
    (e.setContext k').Sound where
  bytes_eq := h.bytes_eq
  workers_eq := h.workers_eq
  allocated_nonneg := h.allocated_nonneg
  allocated_le := h.allocated_le
  sizes_eq := by
    intro k'' heq
    cases heq
    rw [hsizes]
    exact h.sizes_eq k hk
  workers_nonneg := h.workers_nonneg
  allocatedWorkers_le := h.allocatedWorkers_le
  owned_le := by
    intro k'' heq
    cases heq
    exact hworkers
  events_nonneg := h.events_nonneg
  events_ge := by
    intro k'' pool heq hpool
    cases heq
    exact hevents pool hpool

theorem Entry.Sound.construct {e : Entry} (h : e.Sound) (hnone : e.allocated = 0)
    (generation : Nat) : (e.construct generation).Sound where
  bytes_eq := h.bytes_eq
  workers_eq := h.workers_eq
  allocated_nonneg := h.allocated_nonneg
  allocated_le := h.allocated_le
  sizes_eq := by
    intro k heq
    cases heq
    simpa [Entry.construct] using hnone
  workers_nonneg := h.workers_nonneg
  allocatedWorkers_le := h.allocatedWorkers_le
  owned_le := by
    intro k heq
    cases heq
    exact Nat.zero_le _
  events_nonneg := h.events_nonneg
  events_ge := by
    intro k pool heq hpool
    cases heq
    cases hpool

/-- Freeing a block takes no more from the counter than it holds. -/
theorem Entry.Sound.freeStaging {e : Entry} (h : e.Sound) {k : TransferContext} {bytes : Nat}
    {rest : List Nat} (hk : e.context = some k) (hsizes : k.sizes = bytes :: rest) :
    (e.freeStaging k bytes rest).Sound := by
  have hsum : e.allocated = bytes + (rest.sum : Int) := by
    simpa [hsizes] using h.sizes_eq k hk
  constructor
  · exact h.bytes_eq
  · exact h.workers_eq
  · show 0 ≤ e.allocated - bytes
    omega
  · show e.allocated - bytes ≤ e.bytes
    have := h.allocated_le
    omega
  · intro k' heq
    cases heq
    show e.allocated - bytes = (rest.sum : Int)
    omega
  · exact h.workers_nonneg
  · exact h.allocatedWorkers_le
  · intro k' heq
    cases heq
    exact h.owned_le k hk
  · exact h.events_nonneg
  · intro k' pool heq hpool
    cases heq
    exact h.events_ge k pool hk hpool

theorem sum_eq_of_forall_eq {sizes : List Nat} {capacity : Nat}
    (h : ∀ size ∈ sizes, size = capacity) : sizes.sum = sizes.length * capacity := by
  rw [List.eq_replicate_of_mem h]
  simp

/-- A further block of the ring stays within the charge of all its blocks. -/
theorem Entry.Sound.allocStaging {e : Entry} (h : e.Sound) {k : TransferContext}
    (hk : e.context = some k) (hsizes : ∀ size ∈ k.sizes, size = e.capacity)
    (hlength : k.sizes.length < e.key.activeSlots) : (e.allocStaging k).Sound := by
  have hsum : e.allocated = ((k.sizes.length * e.capacity : Nat) : Int) := by
    rw [h.sizes_eq k hk, sum_eq_of_forall_eq hsizes]
  have hroom : k.sizes.length * e.capacity + e.capacity ≤ e.bytes := by
    rw [h.bytes_eq, Nat.mul_comm e.capacity]
    calc k.sizes.length * e.capacity + e.capacity
        = (k.sizes.length + 1) * e.capacity := by rw [Nat.succ_mul]
      _ ≤ e.key.activeSlots * e.capacity := Nat.mul_le_mul_right _ hlength
  constructor
  · exact h.bytes_eq
  · exact h.workers_eq
  · show 0 ≤ e.allocated + e.capacity
    omega
  · show e.allocated + e.capacity ≤ e.bytes
    omega
  · intro k' heq
    cases heq
    show e.allocated + e.capacity = ((k.sizes ++ [e.capacity]).sum : Int)
    rw [h.sizes_eq k hk]
    simp
  · exact h.workers_nonneg
  · exact h.allocatedWorkers_le
  · intro k' heq
    cases heq
    exact h.owned_le k hk
  · exact h.events_nonneg
  · intro k' pool heq hpool
    cases heq
    exact h.events_ge k pool hk hpool

/-- A recorded event is counted once for the slot it is kept in. -/
theorem Entry.Sound.recordEvent {e : Entry} (h : e.Sound) {k : TransferContext}
    {pool : PinnedBufferPool} (hk : e.context = some k) (hpool : k.staging = some pool)
    (slot event : Nat) : (e.recordEvent k pool slot event).Sound := by
  have hevents := h.events_ge k pool hk hpool
  have hset := pending_set_le pool.events slot event
  have hnonneg := h.events_nonneg
  constructor
  · exact h.bytes_eq
  · exact h.workers_eq
  · exact h.allocated_nonneg
  · exact h.allocated_le
  · intro k' heq
    cases heq
    exact h.sizes_eq k hk
  · exact h.workers_nonneg
  · exact h.allocatedWorkers_le
  · intro k' heq
    cases heq
    exact h.owned_le k hk
  · simp only [Entry.recordEvent]
    split <;> omega
  · intro k' pool' heq hpool'
    cases heq
    cases hpool'
    simp only [Entry.recordEvent]
    split at hset <;> simp_all <;> omega

/-- A wait takes an event off the counter only for a slot that holds one. -/
theorem Entry.Sound.waitEvent {e : Entry} (h : e.Sound) {k : TransferContext}
    {pool : PinnedBufferPool} (hk : e.context = some k) (hpool : k.staging = some pool)
    (slot : Nat) (healthy : Bool) : (e.waitEvent k pool slot healthy).Sound := by
  unfold Entry.waitEvent
  cases hslot : pool.events[slot]? with
  | none => exact h
  | some event =>
    by_cases hevent : event = 0
    · simpa [hevent] using h
    have hevents := h.events_ge k pool hk hpool
    have hclear := pending_clear hslot hevent
    simp only [hevent, if_false]
    constructor
    · exact h.bytes_eq
    · exact h.workers_eq
    · exact h.allocated_nonneg
    · exact h.allocated_le
    · intro k' heq
      cases heq
      exact h.sizes_eq k hk
    · exact h.workers_nonneg
    · exact h.allocatedWorkers_le
    · intro k' heq
      cases heq
      exact h.owned_le k hk
    · show 0 ≤ if healthy then e.events - 1 else e.events
      split <;> omega
    · intro k' pool' heq hpool'
      cases heq
      cases hpool'
      show (pending (pool.events.set slot 0) : Int) ≤ if healthy then e.events - 1 else e.events
      split <;> omega

/-! ### What a lease leaves alone -/

/-- The same place, key, charge and generation. -/
structure Entry.SameCharge (e e' : Entry) : Prop where
  id : e'.id = e.id
  key : e'.key = e.key
  capacity : e'.capacity = e.capacity
  bytes : e'.bytes = e.bytes
  workers : e'.workers = e.workers
  cacheable : e'.cacheable = e.cacheable
  generation : e'.generation = e.generation

theorem Entry.SameCharge.refl (e : Entry) : e.SameCharge e := ⟨rfl, rfl, rfl, rfl, rfl, rfl, rfl⟩

theorem sameCharge_setState (e : Entry) (state : ResourceState) :
    e.SameCharge (setState state e) := ⟨rfl, rfl, rfl, rfl, rfl, rfl, rfl⟩

theorem sameCharge_waitEvent (e : Entry) (k : TransferContext) (pool : PinnedBufferPool)
    (slot : Nat) (healthy : Bool) : e.SameCharge (e.waitEvent k pool slot healthy) := by
  unfold Entry.waitEvent
  split
  · exact .refl e
  · split
    · exact .refl e
    · exact ⟨rfl, rfl, rfl, rfl, rfl, rfl, rfl⟩

theorem state_waitEvent (e : Entry) (k : TransferContext) (pool : PinnedBufferPool)
    (slot : Nat) (healthy : Bool) : (e.waitEvent k pool slot healthy).state = e.state := by
  unfold Entry.waitEvent
  split
  · rfl
  · split <;> rfl

/-! ### A step of a lease -/

/-- What the entry of a lease is like in each phase. -/
def Phase.Fits : Phase → Entry → Prop
  | .constructing, e => e.state = .building ∧ (e.context = none → e.allocated = 0)
  | .preparing, e => e.state = .building
  | .releasing, e => e.state = .building
  | .allocating, e => e.state = .building ∧ ∀ k, e.context = some k →
      (∀ size ∈ k.sizes, size = e.capacity)
  | .equipping, e => e.state = .building
  | .publishing, e => e.state = .building
  | .executing, e => e.state = .leased
  | .leaving healthy, e => (e.state = .building ∨ e.state = .leased) ∧
      (healthy = true → e.context ≠ none)

theorem Phase.Fits.leaving_false {phase : Phase} {e : Entry} (h : phase.Fits e) :
    (Phase.leaving false).Fits e := by
  cases phase <;> simp_all [Phase.Fits]

theorem backgroundWorkers_equipped (k : TransferContext) (r : CacheRequest) :
    ({ k with workers := k.equipped r } : TransferContext).backgroundWorkers ≤
      r.execution.gatherThreads - 1 := by
  unfold TransferContext.equipped
  by_cases hown : k.workers = some r.execution.gatherThreads
  · simp [hown, TransferContext.backgroundWorkers]
  · rw [if_neg hown]
    by_cases hmore : 1 < r.execution.gatherThreads
    · simp [hmore, TransferContext.backgroundWorkers]
    · simp [hmore, TransferContext.backgroundWorkers]

/-- A step of a lease keeps its entry sound and in the shape of its phase, and leaves
    the charge alone. -/
theorem leaseStep_keeps {s : CacheState} {r : CacheRequest} {phase phase' : Phase} {e e' : Entry}
    {a : LeaseAction} (hsound : e.Sound) (hfits : phase.Fits e) (hkey : e.key = r.key)
    (h : leaseStep s r phase e a = some (phase', e')) :
    e'.Sound ∧ phase'.Fits e' ∧ e.SameCharge e' := by
  have hsame : ∀ k', e.SameCharge (e.setContext k') := fun k' => ⟨rfl, rfl, rfl, rfl, rfl, rfl, rfl⟩
  unfold leaseStep at h
  split at h
  case h_1 =>
    cases h
    exact ⟨hsound, hfits.1, .refl e⟩
  case h_2 hk =>
    split at h
    · cases h
      exact ⟨hsound.construct (hfits.2 hk) _, hfits.1, ⟨rfl, rfl, rfl, rfl, rfl, rfl, rfl⟩⟩
    · cases h
      exact ⟨hsound, hfits.leaving_false, .refl e⟩
  case h_3 k hk =>
    split at h
    · cases h
      exact ⟨hsound, hfits.leaving_false, .refl e⟩
    · split at h
      · cases h
        exact ⟨hsound.setContext hk rfl (hsound.owned_le k hk)
          (fun pool hpool => hsound.events_ge k pool hk hpool), hfits, hsame _⟩
      · cases h
        exact ⟨hsound.setContext hk rfl (hsound.owned_le k hk) (fun pool hpool => by cases hpool),
          hfits, hsame _⟩
  case h_4 k hk =>
    split at h
    · rename_i hsizes
      cases h
      refine ⟨hsound, ⟨hfits, fun k' hk' => ?_⟩, .refl e⟩
      cases hk.symm.trans hk'
      simp [hsizes]
    · cases h
      exact ⟨hsound.freeStaging hk ‹_›, hfits, ⟨rfl, rfl, rfl, rfl, rfl, rfl, rfl⟩⟩
  case h_5 k hk =>
    split at h
    · rename_i hlength
      split at h
      · cases h
        refine ⟨hsound.allocStaging hk (hfits.2 k hk) ?_, ⟨hfits.1, fun k' hk' => ?_⟩,
          ⟨rfl, rfl, rfl, rfl, rfl, rfl, rfl⟩⟩
        · rw [hkey, ← r.slots_eq]
          exact hlength
        · cases hk'
          intro size hsize
          rcases List.mem_append.mp hsize with hold | hnew
          · exact hfits.2 k hk size hold
          · exact List.mem_singleton.mp hnew
      · cases h
        exact ⟨hsound, hfits.leaving_false, .refl e⟩
    · cases h
  case h_6 k hk =>
    split at h
    · cases h
    · split at h
      · cases h
        exact ⟨hsound, hfits.leaving_false, .refl e⟩
      · cases h
        refine ⟨hsound.setContext hk rfl (hsound.owned_le k hk) fun pool hpool => ?_, hfits.1,
          hsame _⟩
        cases hpool
        simpa [pending_replicate] using hsound.events_nonneg
  case h_7 k hk =>
    have hthreads : r.execution.gatherThreads - 1 ≤ e.workers := by
      rw [hsound.workers_eq, hkey, ← r.workers_eq, r.threads_eq]
    have hpending := fun pool hpool => hsound.events_ge k pool hk hpool
    split at h
    · cases h
      exact ⟨hsound.setContext hk rfl (Nat.zero_le _) hpending, ⟨.inl hfits, by simp⟩, hsame _⟩
    · cases h
      exact ⟨hsound.setContext hk rfl (Nat.le_trans (backgroundWorkers_equipped k r) hthreads)
        hpending, hfits, hsame _⟩
  case h_8 k hk =>
    have hpublished : ({ e with allocatedWorkers := k.backgroundWorkers } : Entry).Sound :=
      ⟨hsound.bytes_eq, hsound.workers_eq, hsound.allocated_nonneg, hsound.allocated_le,
        hsound.sizes_eq, Int.natCast_nonneg _, by simpa using hsound.owned_le k hk,
        hsound.owned_le, hsound.events_nonneg, hsound.events_ge⟩
    split at h
    · cases h
      exact ⟨hpublished, ⟨.inl hfits, by simp⟩, ⟨rfl, rfl, rfl, rfl, rfl, rfl, rfl⟩⟩
    · split at h
      · cases h
        exact ⟨hpublished, ⟨.inl hfits, by simp⟩, ⟨rfl, rfl, rfl, rfl, rfl, rfl, rfl⟩⟩
      · cases h
        exact ⟨hpublished.setState .leased, rfl, ⟨rfl, rfl, rfl, rfl, rfl, rfl, rfl⟩⟩
  case h_9 k hk =>
    split at h
    · cases h
    · cases h
      exact ⟨hsound.recordEvent hk ‹_› _ _, hfits, ⟨rfl, rfl, rfl, rfl, rfl, rfl, rfl⟩⟩
  case h_10 k hk =>
    split at h
    · cases h
    · cases h
      refine ⟨hsound.waitEvent hk ‹_› _ _, ?_, sameCharge_waitEvent _ _ _ _ _⟩
      show (e.waitEvent _ _ _ _).state = .leased
      rw [state_waitEvent]
      exact hfits
  case h_11 k hk =>
    have hsettled : ∀ completion, (e.setContext { k with completion }).Sound := fun completion =>
      hsound.setContext hk rfl (hsound.owned_le k hk)
        (fun pool hpool => hsound.events_ge k pool hk hpool)
    split at h
    · cases h
      exact ⟨hsettled _, ⟨.inr hfits, by simp [Entry.setContext]⟩, hsame _⟩
    · cases h
      exact ⟨hsettled _, ⟨.inr hfits, by simp⟩, hsame _⟩
    · cases h
      exact ⟨hsettled _, ⟨.inr hfits, by simp⟩, hsame _⟩
  case h_12 => cases h

theorem teardown_sameCharge {e e' : Entry} {destroy : Bool} (h : e.teardown destroy = some e') :
    e.SameCharge e' ∧ e'.state = e.state := by
  unfold Entry.teardown at h
  split at h
  · cases h
  · split at h
    · cases h
    · split at h
      · cases h
        exact ⟨⟨rfl, rfl, rfl, rfl, rfl, rfl, rfl⟩, rfl⟩
      · split at h
        · cases h
        · cases h
          exact ⟨⟨rfl, rfl, rfl, rfl, rfl, rfl, rfl⟩, rfl⟩

theorem Entry.Sound.teardown {e e' : Entry} (h : e.Sound) {destroy : Bool}
    (hdown : e.teardown destroy = some e') : e'.Sound := by
  unfold Entry.teardown at hdown
  cases hk : e.context with
  | none => simp [hk] at hdown
  | some k =>
    simp only [hk] at hdown
    split at hdown
    · cases hdown
    · split at hdown
      · cases hdown
        exact ⟨h.bytes_eq, h.workers_eq, h.allocated_nonneg, h.allocated_le, by simp,
          Int.le_refl _, Int.natCast_nonneg _, by simp, Int.le_refl _, by simp⟩
      · split at hdown
        · cases hdown
        · cases hdown
          exact h.freeStaging hk ‹_›

end SymReloc.Cache
