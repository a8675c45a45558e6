import SymReloc.Cache.Queue

/-!
# Budgets in every reachable state

The charges stay within the limits, every entry covers what it has allocated, an entry
has one caller and the queue is served in order: one invariant, kept by each lock
section.
-/

namespace SymReloc.Cache

open Ledger

structure Invariant (limits : TransferResourceLimits) (m : Machine) : Prop where
  within : Within limits m.cache.entries
  owned : Owned m
  queued : Queued m

namespace Invariant

variable {limits : TransferResourceLimits} {m : Machine} {c id ticket : Nat} {e : Entry}
  {r : CacheRequest}

theorem start (limits : TransferResourceLimits) : Invariant limits .start where
  within := within_nil limits
  owned := by
    constructor <;> simp [Machine.start, CacheState.empty, Call.Demands, Call.holds]
  queued := by
    constructor <;> simp [Machine.start, CacheState.empty, Call.ticket]

/-- Change an entry that no other call has, and keep its charge. -/
theorem touch (h : Invariant limits m) {cache : CacheState} {change : Entry → Entry} {call : Call}
    (hentries : cache.entries = m.cache.entries) (hnextId : cache.nextId = m.cache.nextId)
    (hwaiters : cache.waiters = m.cache.waiters) (hgrants : cache.grants = m.cache.grants)
    (hnext : cache.nextTicket = m.cache.nextTicket) (he : e ∈ m.cache.entries)
    (hfree : ∀ d, d ≠ c → (m.calls d).holds ≠ some e.id) (hsame : e.SameCharge (change e))
    (hsound : (change e).Sound) (hkept : (change e).Kept) (hcall : call.Demands [change e])
    (hticket : ∀ t, call.ticket = some t →
      t ∈ m.cache.waiters ∧ ∀ d, d ≠ c → (m.calls d).ticket ≠ some t) :
    Invariant limits ({ m with cache }.touch c e.id change call) where
  within := by
    refine Within.amend (hentries ▸ h.within) fun d hd hid => ?_
    rw [hentries] at hd
    rw [eq_of_number_eq h.owned.unique hd he hid]
    exact hsame
  owned := (h.owned.withCache hentries (Nat.le_of_eq hnextId.symm)).touch
    (by rw [hentries]; exact he) hfree hsame.id hsound hkept hcall
  queued := h.queued.withCall hwaiters hgrants hnext hticket

/-- An idle entry is taken for retirement. -/
theorem evict (h : Invariant limits m) {resume : Resume} (he : e ∈ m.cache.entries)
    (hidle : e.state = .idle)
    (hticket : ∀ t, (Call.retiring e.id resume).ticket = some t →
      t ∈ m.cache.waiters ∧ ∀ d, d ≠ c → (m.calls d).ticket ≠ some t) :
    Invariant limits (m.touch c e.id (setState .retiring) (.retiring e.id resume)) :=
  h.touch rfl rfl rfl rfl rfl he (fun d _ => h.owned.free_of_idle he hidle d)
    (sameCharge_setState e _) ((h.owned.sound e he).setState _) (fun hstate => by cases hstate)
    ⟨_, List.mem_singleton_self _, rfl, rfl⟩ hticket

/-- A call that has nothing, before and after. -/
theorem setCall (h : Invariant limits m) {cache : CacheState} {call : Call}
    (hentries : cache.entries = m.cache.entries) (hnextId : cache.nextId = m.cache.nextId)
    (hwaiters : cache.waiters = m.cache.waiters) (hgrants : cache.grants = m.cache.grants)
    (hnext : cache.nextTicket = m.cache.nextTicket) (hholds : call.holds = none)
    (hticket : ∀ t, call.ticket = some t →
      t ∈ m.cache.waiters ∧ ∀ d, d ≠ c → (m.calls d).ticket ≠ some t) :
    Invariant limits ({ m with cache }.setCall c call) where
  within := by
    show Within limits cache.entries
    rw [hentries]
    exact h.within
  owned := h.owned.setCall hentries (Nat.le_of_eq hnextId.symm) hholds
  queued := h.queued.withCall hwaiters hgrants hnext hticket

/-- The same entries and queue under other flags. -/
theorem withCache (h : Invariant limits m) {cache : CacheState}
    (hentries : cache.entries = m.cache.entries) (hnextId : cache.nextId = m.cache.nextId)
    (hwaiters : cache.waiters = m.cache.waiters) (hgrants : cache.grants = m.cache.grants)
    (hnext : cache.nextTicket = m.cache.nextTicket) : Invariant limits { m with cache } where
  within := by
    show Within limits cache.entries
    rw [hentries]
    exact h.within
  owned := h.owned.withCache hentries (Nat.le_of_eq hnextId.symm)
  queued := by
    have hq := h.queued
    constructor
    · show cache.waiters.Pairwise _
      rw [hwaiters]
      exact hq.sorted
    · show ∀ t ∈ cache.waiters, t < cache.nextTicket
      rw [hwaiters, hnext]
      exact hq.below
    · show ∀ c t, (m.calls c).ticket = some t → t ∈ cache.waiters
      rw [hwaiters]
      exact hq.queued
    · exact hq.distinct
    · show (cache.grants.map Grant.ticket).Pairwise _
      rw [hgrants]
      exact hq.granted
    · show ∀ g ∈ cache.grants, ∀ t ∈ cache.waiters, g.ticket < t
      rw [hgrants, hwaiters]
      exact hq.past
    · show ∀ g ∈ cache.grants, g.ticket < cache.nextTicket
      rw [hgrants, hnext]
      exact hq.issued

theorem enqueue (h : Invariant limits m) :
    Invariant limits { m with cache := m.cache.enqueue } where
  within := h.within
  owned := h.owned.withCache rfl (Nat.le_refl _)
  queued := h.queued.enqueue

/-! ### Acquisition -/

theorem hit (h : Invariant limits m) {floor : Nat} (he : e ∈ m.cache.entries)
    (hidle : e.state = .idle) (hkey : e.key = r.key) (hhead : m.cache.waiters.head? = some ticket)
    (hother : ∀ d, d ≠ c → (m.calls d).ticket ≠ some ticket) :
    Invariant limits ({ m with cache := m.cache.serveHit ticket e.id }.setCall c
      (.leased r e.id floor .executing)) where
  within := h.within.amend fun d _ _ => sameCharge_setState d .leased
  owned := (h.owned.granted ticket e.id).touch he
    (fun d _ => h.owned.free_of_idle he hidle d) rfl ((h.owned.sound e he).setState .leased)
    (fun hstate => by cases hstate) ⟨_, List.mem_singleton_self _, rfl, hkey, rfl⟩
  queued := h.queued.leave rfl rfl rfl hother rfl (.inr ⟨e.id, rfl, hhead⟩)

theorem grow (h : Invariant limits m) {floor : Nat} (he : e ∈ m.cache.entries)
    (hidle : e.state = .idle) (hkey : e.key = r.key) (hcapacity : e.capacity < r.slotCapacity)
    (hr : r.cacheable = true)
    (hfits : fits limits r (some e) (m.cache.usage none false)
      (m.cache.usage (some r.key) false) = true)
    (hhead : m.cache.waiters.head? = some ticket)
    (hother : ∀ d, d ≠ c → (m.calls d).ticket ≠ some ticket) :
    Invariant limits ({ m with cache := m.cache.serveGrow ticket e.id r }.setCall c
      (.leased r e.id floor .constructing)) where
  within := h.within.grow h.owned.unique he (h.owned.kept e he hidle).1 hr hfits rfl rfl rfl rfl
  owned := (h.owned.granted ticket e.id).touch he
    (fun d _ => h.owned.free_of_idle he hidle d) rfl
    ((h.owned.sound e he).grow hkey (Nat.le_of_lt hcapacity) _)
    (fun hstate => by cases hstate)
    ⟨_, List.mem_singleton_self _, rfl, hkey, rfl,
      fun hnone => absurd hnone (h.owned.kept e he hidle).2⟩
  queued := h.queued.leave rfl rfl rfl hother rfl (.inr ⟨e.id, rfl, hhead⟩)

theorem miss (h : Invariant limits m) {floor : Nat}
    (hfits : fits limits r none (m.cache.usage none false)
      (m.cache.usage (some r.key) false) = true)
    (hhead : m.cache.waiters.head? = some ticket)
    (hother : ∀ d, d ≠ c → (m.calls d).ticket ≠ some ticket) :
    Invariant limits ({ m with cache := m.cache.serveMiss ticket r }.setCall c
      (.leased r m.cache.nextId floor .constructing)) where
  within := h.within.append _ _ hfits
  owned := h.owned.append rfl rfl
  queued := h.queued.leave rfl rfl rfl hother rfl (.inr ⟨_, rfl, hhead⟩)

/-- A round of `acquire`, for a call in the queue. -/
theorem acquireRound (h : Invariant limits m) {waited late : Bool}
    (hmem : ticket ∈ m.cache.waiters)
    (hother : ∀ d, d ≠ c → (m.calls d).ticket ≠ some ticket) :
    Invariant limits (m.acquireRound limits c r ticket waited late) := by
  have hmeans := means_admission limits m.cache ticket r waited late
  unfold Machine.acquireRound
  cases hverdict : m.cache.admission limits ticket r waited late with
  | refused reason =>
    exact {
      within := h.within
      owned := h.owned.setCall rfl (Nat.le_refl _) rfl
      queued := h.queued.leave rfl (List.append_nil _).symm rfl hother rfl (.inl rfl) }
  | hit id =>
    rw [hverdict] at hmeans
    obtain ⟨-, hhead, e, he, rfl, hidle, hkey⟩ := hmeans
    exact h.hit he hidle hkey hhead hother
  | grow id =>
    rw [hverdict] at hmeans
    obtain ⟨-, hhead, -, hfits, e, he, hgrow, rfl, hidle, hkey, hcapacity, hr⟩ := hmeans
    rw [hgrow] at hfits
    exact h.grow he hidle hkey hcapacity hr hfits hhead hother
  | miss =>
    rw [hverdict] at hmeans
    obtain ⟨-, hhead, hfits⟩ := hmeans
    exact h.miss hfits hhead hother
  | evict id =>
    rw [hverdict] at hmeans
    obtain ⟨e, he, rfl, hidle⟩ := hmeans
    refine h.evict he hidle fun t ht => ?_
    cases ht
    exact ⟨hmem, hother⟩
  | wait =>
    refine h.setCall rfl rfl rfl rfl rfl rfl fun t ht => ?_
    cases ht
    exact ⟨hmem, hother⟩

/-! ### Clearing, finishing and retiring -/

theorem mem_of_stale {s : CacheState} {cutoff : Nat} (h : s.stale cutoff = some e) :
    e ∈ s.entries ∧ e.state = .idle ∧ e.generation < cutoff := by
  have hsome := List.find?_some h
  simp only [decide_eq_true_eq, Entry.idle] at hsome
  exact ⟨List.mem_of_find?_eq_some h, hsome.1, hsome.2⟩

theorem clearRound (h : Invariant limits m) {closing : Bool} {cutoff : Nat} :
    Invariant limits (m.clearRound c closing cutoff) := by
  have hnone : ∀ {call : Call}, call.ticket = none → ∀ t, call.ticket = some t →
      t ∈ m.cache.waiters ∧ ∀ d, d ≠ c → (m.calls d).ticket ≠ some t :=
    fun hcall t ht => by simp [hcall] at ht
  unfold Machine.clearRound
  cases hstale : m.cache.stale cutoff with
  | some e =>
    obtain ⟨he, hidle, -⟩ := mem_of_stale hstale
    exact h.evict he hidle (hnone rfl)
  | none =>
    dsimp only
    split
    · exact h.setCall rfl rfl rfl rfl rfl rfl (hnone rfl)
    · split
      · exact h.setCall rfl rfl rfl rfl rfl rfl (hnone rfl)
      · split
        · exact h.setCall rfl rfl rfl rfl rfl rfl (hnone rfl)
        · exact h.setCall rfl rfl rfl rfl rfl rfl (hnone rfl)

theorem clearStart (h : Invariant limits m) {closing : Bool} :
    Invariant limits (m.clearStart c closing) := by
  unfold Machine.clearStart
  split
  · exact h
  · split
    · exact h
    · have hcut : Invariant limits { m with cache := m.cache.cutOff closing } :=
        h.withCache rfl rfl rfl rfl rfl
      exact hcut.clearRound

theorem finish (h : Invariant limits m) {floor : Nat} {healthy : Bool}
    (hc : m.calls c = .leased r id floor (.leaving healthy)) (he : m.cache.entryOf id = some e) :
    Invariant limits (m.finish c e healthy) := by
  obtain ⟨hmem, hid⟩ := Owned.mem_of_entryOf he
  obtain ⟨-, -, hcontext⟩ := h.owned.leased_entry hc he
  have hfree : ∀ d, d ≠ c → (m.calls d).holds ≠ some e.id := fun d hd =>
    h.owned.free_of_holds (by simp [hc, Call.holds, hid]) d hd
  have hsound := h.owned.sound e hmem
  unfold Machine.finish
  split
  · rename_i hidle
    exact h.touch rfl rfl rfl rfl rfl hmem hfree ⟨rfl, rfl, rfl, rfl, rfl, rfl, rfl⟩
      (hsound.use _ _) (fun _ => ⟨hidle.2.1, hcontext hidle.1⟩) trivial (fun t ht => by cases ht)
  · exact h.touch rfl rfl rfl rfl rfl hmem hfree (sameCharge_setState e _) (hsound.setState _)
      (fun hstate => by cases hstate) ⟨_, List.mem_singleton_self _, rfl, rfl⟩
      (fun t ht => by cases ht)

theorem resume_ticket (h : Invariant limits m) {resume : Resume}
    (hc : m.calls c = .retiring id resume) (t : Nat) (ht : resume.call.ticket = some t) :
    t ∈ m.cache.waiters ∧ ∀ d, d ≠ c → (m.calls d).ticket ≠ some t := by
  have hticket : (m.calls c).ticket = some t := by
    rw [hc]
    cases resume with
    | acquire r ticket waited => exact ht
    | done => cases ht
    | clear closing cutoff => cases ht
  exact ⟨h.queued.queued c t hticket, fun d hd hd' => hd (h.queued.distinct d c t hd' hticket)⟩

theorem holds_resume (resume : Resume) : resume.call.holds = none := by
  cases resume <;> rfl

theorem retired (h : Invariant limits m) {resume : Resume} {m' : Machine}
    (hc : m.calls c = .retiring id resume) (he : m.cache.entryOf id = some e)
    (hstep : m.retired c e resume = some m') : Invariant limits m' := by
  obtain ⟨hmem, hid⟩ := Owned.mem_of_entryOf he
  have hholds : (m.calls c).holds = some e.id := by simp [hc, Call.holds, hid]
  unfold Machine.retired at hstep
  split at hstep
  · cases hstep
    exact {
      within := h.within.strike e.id
      owned := h.owned.strike hholds (holds_resume resume)
      queued := h.queued.withCall rfl rfl rfl (h.resume_ticket hc) }
  · split at hstep
    · cases hstep
      exact h.touch rfl rfl rfl rfl rfl hmem (h.owned.free_of_holds hholds)
        (sameCharge_setState e _) ((h.owned.sound e hmem).setState _)
        (fun hstate => by cases hstate) (Call.demands_of_holds_none (holds_resume resume) _)
        (h.resume_ticket hc)
    · cases hstep

/-! ### Steps of a lease and of a retirement -/

/-- A step that a call makes on the entry it has, and still has. -/
theorem own (h : Invariant limits m) {e' : Entry} {call : Call}
    (hc : (m.calls c).holds = some id) (he : m.cache.entryOf id = some e)
    (hsame : e.SameCharge e') (hsound : e'.Sound) (hkept : e'.Kept)
    (hcall : call.Demands [e']) (hticket : ∀ t, call.ticket = some t →
      t ∈ m.cache.waiters ∧ ∀ d, d ≠ c → (m.calls d).ticket ≠ some t) :
    Invariant limits (m.touch c id (fun _ => e') call) := by
  obtain ⟨hmem, hid⟩ := Owned.mem_of_entryOf he
  subst hid
  exact h.touch rfl rfl rfl rfl rfl hmem (h.owned.free_of_holds hc) hsame hsound hkept hcall
    hticket

theorem kept_of_fits {phase : Phase} (h : phase.Fits e) : e.Kept := by
  intro hidle
  cases phase <;> simp_all [Phase.Fits]

theorem lease (h : Invariant limits m) {floor : Nat} {phase phase' : Phase} {a : LeaseAction}
    {e' : Entry} (hc : m.calls c = .leased r id floor phase) (he : m.cache.entryOf id = some e)
    (hstep : leaseStep m.cache r phase e a = some (phase', e')) :
    Invariant limits (m.touch c id (fun _ => e') (.leased r id floor phase')) := by
  obtain ⟨hmem, hid⟩ := Owned.mem_of_entryOf he
  obtain ⟨hkey, hfits⟩ := h.owned.leased_entry hc he
  obtain ⟨hsound, hfits', hsame⟩ := leaseStep_keeps (h.owned.sound e hmem) hfits hkey hstep
  exact h.own (by simp [hc, Call.holds]) he hsame hsound (kept_of_fits hfits')
    ⟨_, List.mem_singleton_self _, hsame.id.trans hid, hsame.key.trans hkey, hfits'⟩
    (fun t ht => by cases ht)

theorem teardownLease (h : Invariant limits m) {floor : Nat} {destroy : Bool} {e' : Entry}
    (hc : m.calls c = .leased r id floor (.leaving false)) (he : m.cache.entryOf id = some e)
    (hstep : e.teardown destroy = some e') :
    Invariant limits (m.touch c id (fun _ => e') (.leased r id floor (.leaving false))) := by
  obtain ⟨hmem, hid⟩ := Owned.mem_of_entryOf he
  obtain ⟨hkey, hfits⟩ := h.owned.leased_entry hc he
  obtain ⟨hsame, hstate⟩ := teardown_sameCharge hstep
  have hfits' : (Phase.leaving false).Fits e' := ⟨by rw [hstate]; exact hfits.1, by simp⟩
  exact h.own (by simp [hc, Call.holds]) he hsame ((h.owned.sound e hmem).teardown hstep)
    (kept_of_fits hfits')
    ⟨_, List.mem_singleton_self _, hsame.id.trans hid, hsame.key.trans hkey, hfits'⟩
    (fun t ht => by cases ht)

theorem teardownRetiring (h : Invariant limits m) {resume : Resume} {destroy : Bool} {e' : Entry}
    (hc : m.calls c = .retiring id resume) (he : m.cache.entryOf id = some e)
    (hstep : e.teardown destroy = some e') :
    Invariant limits (m.touch c id (fun _ => e') (.retiring id resume)) := by
  obtain ⟨hmem, hid⟩ := Owned.mem_of_entryOf he
  obtain ⟨hsame, hstate⟩ := teardown_sameCharge hstep
  have hretiring := hstate.trans (h.owned.retiring_entry hc he)
  refine h.own (by simp [hc, Call.holds]) he hsame ((h.owned.sound e hmem).teardown hstep)
    (fun hidle => by rw [hretiring] at hidle; cases hidle)
    ⟨_, List.mem_singleton_self _, hsame.id.trans hid, hretiring⟩ fun t ht => ?_
  refine h.resume_ticket hc t ?_
  cases resume with
  | acquire r ticket waited => exact ht
  | done => cases ht
  | clear closing cutoff => cases ht

/-! ### All steps -/

/-- Every action keeps the invariant. -/
theorem step (h : Invariant limits m) {a : Action} {m' : Machine}
    (hstep : Cache.step limits m a = some m') : Invariant limits m' := by
  cases a with
  | arrive c r =>
    simp only [Cache.step] at hstep
    split at hstep <;> cases hstep
    refine h.enqueue.acquireRound (List.mem_append_right _ (List.mem_singleton_self _))
      fun d _ hd => ?_
    exact absurd (h.queued.below _ (h.queued.queued d _ hd)) (Nat.lt_irrefl _)
  | wake c late =>
    simp only [Cache.step] at hstep
    split at hstep <;> cases hstep
    rename_i r ticket waited hc
    have hticket : (m.calls c).ticket = some ticket := by simp [hc, Call.ticket]
    exact h.acquireRound (h.queued.queued c ticket hticket)
      fun d hd hd' => hd (h.queued.distinct d c ticket hd' hticket)
  | lease c a =>
    simp only [Cache.step] at hstep
    split at hstep
    · simp only [Option.bind_eq_bind, Option.bind_eq_some_iff, Option.some.injEq,
        Prod.exists] at hstep
      obtain ⟨e, he, phase', e', hlease, rfl⟩ := hstep
      exact h.lease ‹_› he hlease
    · cases hstep
  | teardown c destroy =>
    simp only [Cache.step] at hstep
    split at hstep
    · simp only [Option.bind_eq_bind, Option.bind_eq_some_iff, Option.some.injEq] at hstep
      obtain ⟨e, he, e', hdown, rfl⟩ := hstep
      exact h.teardownLease ‹_› he hdown
    · simp only [Option.bind_eq_bind, Option.bind_eq_some_iff, Option.some.injEq] at hstep
      obtain ⟨e, he, e', hdown, rfl⟩ := hstep
      exact h.teardownRetiring ‹_› he hdown
    · cases hstep
  | finish c =>
    simp only [Cache.step] at hstep
    split at hstep
    · simp only [Option.bind_eq_bind, Option.bind_eq_some_iff, Option.some.injEq] at hstep
      obtain ⟨e, he, rfl⟩ := hstep
      exact h.finish ‹_› he
    · cases hstep
  | retired c =>
    simp only [Cache.step] at hstep
    split at hstep
    · simp only [Option.bind_eq_bind, Option.bind_eq_some_iff] at hstep
      obtain ⟨e, he, hretired⟩ := hstep
      exact h.retired ‹_› he hretired
    · cases hstep
  | clear c closing =>
    simp only [Cache.step] at hstep
    split at hstep <;> cases hstep
    exact h.clearStart
  | resume c =>
    simp only [Cache.step] at hstep
    split at hstep <;> cases hstep
    exact h.clearRound

theorem of_reachable (h : (system limits).Reachable m) : Invariant limits m :=
  System.Reachable.invariant (I := Invariant limits)
    (fun s (hs : s = .start) => by rw [hs]; exact start limits)
    (fun _ _ _ hs hstep => hs.step hstep) h

end Invariant

/-! ### The budgets of the cache -/

/-- What the cache counts, against its configured limits. -/
structure WithinBudgets (limits : TransferResourceLimits) (s : CacheState) : Prop where
  contexts : (s.usage none false).contexts ≤ limits.maxContexts
  device : ∀ key, (s.usage (some key) false).contexts ≤ limits.maxContextsPerDevice
  workers : workers (s.usage none false) ≤ limits.maxBackgroundWorkers
  retained : retained (s.usage none false) ≤ limits.maxRetainedBytes
  live : live (s.usage none false) ≤ liveLimit limits

/-- The counters of an entry count what it has, within its charge and never below zero. -/
structure Entry.Covered (e : Entry) : Prop where
  allocated_nonneg : 0 ≤ e.allocated
  allocated_le : e.allocated ≤ e.bytes
  sizes_eq : ∀ k, e.context = some k → e.allocated = (k.sizes.sum : Int)
  workers_nonneg : 0 ≤ e.allocatedWorkers
  workers_le : e.allocatedWorkers ≤ e.workers
  owned_le : ∀ k, e.context = some k → k.backgroundWorkers ≤ e.workers
  events_nonneg : 0 ≤ e.events
  events_ge : ∀ k pool, e.context = some k → k.staging = some pool →
    (pending pool.events : Int) ≤ e.events

/-- A lease is for one call, on an entry in use; an idle entry is nobody's. -/
structure Machine.Exclusive (m : Machine) : Prop where
  alone : ∀ c d id, (m.calls c).holds = some id → (m.calls d).holds = some id → c = d
  entry : ∀ c id, (m.calls c).holds = some id → ∃ e ∈ m.cache.entries, e.id = id ∧ e.state ≠ .idle
  unique : (m.cache.entries.map Entry.id).Nodup

/-- The leases granted so far were granted in the order of arrival, before every call that
    still waits. -/
structure Machine.InOrder (m : Machine) : Prop where
  granted : (m.cache.grants.map Grant.ticket).Pairwise (· < ·)
  waiting : ∀ g ∈ m.cache.grants, ∀ c t, (m.calls c).ticket = some t → g.ticket < t

/-- In every reachable state the cache is within its budgets, the charge of every entry
    covers what it has allocated, leases are exclusive and granted in order. -/
theorem transferCache_budgets (limits : TransferResourceLimits) {m : Machine}
    (h : (system limits).Reachable m) :
    WithinBudgets limits m.cache ∧ (∀ e ∈ m.cache.entries, e.Covered) ∧ m.Exclusive ∧
      m.InOrder := by
  have hinv := Invariant.of_reachable h
  have hwithin := hinv.within
  refine ⟨⟨hwithin.contexts, hwithin.device, ?_, ?_, ?_⟩, fun e he => ?_, ⟨hinv.owned.alone, ?_,
    hinv.owned.unique⟩, ⟨hinv.queued.granted, ?_⟩⟩
  · show workers (usageOf m.cache.entries) ≤ _
    rw [workers_usageOf]
    exact_mod_cast hwithin.workers
  · show retained (usageOf m.cache.entries) ≤ _
    rw [retained_usageOf]
    exact_mod_cast hwithin.retained
  · show live (usageOf m.cache.entries) ≤ _
    rw [live_usageOf]
    exact_mod_cast hwithin.live
  · have hsound := hinv.owned.sound e he
    exact ⟨hsound.allocated_nonneg, hsound.allocated_le, hsound.sizes_eq, hsound.workers_nonneg,
      hsound.allocatedWorkers_le, hsound.owned_le, hsound.events_nonneg, hsound.events_ge⟩
  · intro c id hc
    obtain ⟨e, he, hid⟩ := hinv.owned.holds_entry hc
    exact ⟨e, he, hid, fun hidle => hinv.owned.free_of_idle he hidle c (hid ▸ hc)⟩
  · intro g hg c t ht
    exact hinv.queued.past g hg t (hinv.queued.queued c t ht)

/-! ### A small cache -/

def smallCache : TransferResourceLimits where
  maxRetainedBytes := 2 ^ 28
  maxContexts := 4
  maxContextsPerDevice := 2
  maxBackgroundWorkers := 64
  maxLiveStagingBytes := none
  acquireTimeout := none

def hostOptions (tag : Nat) : CachedTransferOptions where
  nBuffers := 2
  chunkSizeOverride := 0
  gatherThreads := 1
  rawGather := none
  pinning := .pinned
  minPinnedBytes := none
  backend := { kind := .host, device := -1, streams := 2, pinned := true }
  gather := none
  placementTag := tag

/-- Download two 16-bit cells that lie `stride` cells apart. -/
def pairDownload (stride : Int) : TransferRequest where
  bound :=
    { extents := [2], srcStrides := [stride], dstStrides := [1], perm := [0], padRegions := [],
      elementSize := 2, totalBytes := 4, noCopy := false, typed := false,
      strategy := .singleThreadSimd, L := 1, requiredAlignments := [] }
  source :=
    { base := 1, capacityBytes := 2 ^ 64 - 1, offsetBytes := 0, extents := [2],
      strides := [stride], elementSize := 2, kind := .host, device := -1 }
  destination :=
    { base := 1, capacityBytes := 4, offsetBytes := 0, extents := [2], strides := [1],
      elementSize := 2, kind := .host, device := -1 }
  direction := .deviceToHost
  consumed := false

/-- The request of a download through one slot. -/
def download (sourceBytes slotCapacity tag : Nat) (h : slotCapacity < 2 ^ 64) : CacheRequest where
  execution :=
    { schedule := none, sourceBytes, slotBytes := sourceBytes, stagingBytes := sourceBytes,
      activeSlots := 1, gatherThreads := 1 }
  key :=
    { backend := { kind := .host, device := -1, streams := 2, pinned := false }
      direction := .deviceToHost, activeSlots := 1, workers := .inline, participants := 1
      placementTag := tag, affinity := [] }
  slotCapacity := slotCapacity
  bytes := slotCapacity
  workers := 0
  cacheable := slotCapacity ≤ 2 ^ 28
  staging :=
    { policy := .pinned, pinned := false, retentionEligible := slotCapacity ≤ 2 ^ 28,
      wireBytes := sourceBytes, threshold := none, reason := "host_backend" }
  slots_eq := rfl
  threads_eq := rfl
  workers_eq := rfl
  bytes_eq := (Nat.mul_one _).symm
  bytes_lt := h

/-- Two neighbouring cells: one block of staging, under a placement of the caller's. -/
def nearby (tag : Nat) : CacheRequest := download 4 (2 ^ 18) tag (by decide)

/-- A lease whose context is new, up to its execution. -/
def building (c : Nat) : List Action :=
  [.lease c (.construct true), .lease c (.restage true), .lease c .release,
    .lease c (.allocate true), .lease c (.staged true), .lease c (.equip true), .lease c .publish]

/-- An execution that succeeds. -/
def succeeding (c : Nat) : List Action :=
  [.lease c (.settle (.succeeded true)), .finish c]

example : describeCachedTransfer 1 [] (pairDownload 1) 4 (hostOptions 0) smallCache =
    .ok (nearby 0) := by decide +kernel

/-- A lease that is executing: its one context and its block of staging. -/
theorem transferCache_budgets_nearby :
    ∃ m, (system smallCache).perform (.arrive 0 (nearby 0) :: building 0) .start = some m ∧
      WithinBudgets smallCache m.cache ∧ (∀ e ∈ m.cache.entries, e.Covered) ∧ m.Exclusive ∧
        m.InOrder := by
  have hsome : ((system smallCache).perform (.arrive 0 (nearby 0) :: building 0) .start).isSome :=
    by decide +kernel
  obtain ⟨m, hm⟩ := Option.isSome_iff_exists.mp hsome
  exact ⟨m, hm, transferCache_budgets smallCache (System.reachable_of_perform rfl hm)⟩

end SymReloc.Cache
