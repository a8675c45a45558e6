import SymReloc.Cache.Ownership

/-!
# Admission

What a verdict says of the entry it names, and why an admitted request stays within the
limits: the charges are added up before the lease is granted, and nothing else raises
them.
-/

namespace SymReloc.Cache

open Ledger

/-! ### Verdicts -/

/-- What a verdict means for a request. -/
def Verdict.Means (limits : TransferResourceLimits) (s : CacheState) (ticket : Nat)
    (r : CacheRequest) : Verdict → Prop
  | .refused _ => True
  | .hit id => s.closed = false ∧ s.waiters.head? = some ticket ∧
      ∃ e ∈ s.entries, e.id = id ∧ e.state = .idle ∧ e.key = r.key
  | .grow id => s.closed = false ∧ s.waiters.head? = some ticket ∧ s.sufficient r = none ∧
      fits limits r (s.growable r) (s.usage none false) (s.usage (some r.key) false) = true ∧
      ∃ e ∈ s.entries, s.growable r = some e ∧ e.id = id ∧ e.state = .idle ∧ e.key = r.key ∧
        e.capacity < r.slotCapacity ∧ r.cacheable = true
  | .miss => s.closed = false ∧ s.waiters.head? = some ticket ∧
      fits limits r none (s.usage none false) (s.usage (some r.key) false) = true
  | .evict id => ∃ e ∈ s.entries, e.id = id ∧ e.state = .idle
  | .wait => True

theorem mem_candidates {s : CacheState} {r : CacheRequest} {e : Entry}
    (h : e ∈ s.candidates r) :
    e ∈ s.entries ∧ e.state = .idle ∧ e.key = r.key ∧ r.cacheable = true := by
  unfold CacheState.candidates at h
  split at h
  · simpa [Entry.idle, and_assoc, ‹r.cacheable = true›] using h
  · simp at h

theorem mem_of_sufficient {s : CacheState} {r : CacheRequest} {e : Entry}
    (h : s.sufficient r = some e) : e ∈ s.candidates r := by
  rcases mem_of_pickFrom h with hnone | hmem
  · cases hnone
  · exact (List.mem_filter.mp hmem).1

theorem mem_of_growable {s : CacheState} {r : CacheRequest} {e : Entry}
    (h : s.growable r = some e) : e ∈ s.candidates r ∧ e.capacity < r.slotCapacity := by
  rcases mem_of_pickFrom h with hnone | hmem
  · cases hnone
  · simpa using List.mem_filter.mp hmem

theorem mem_of_victim {limits : TransferResourceLimits} {s : CacheState} {r : CacheRequest}
    {grow : Option Entry} {e : Entry} (h : s.victim limits r grow = some e) :
    e ∈ s.entries ∧ e.state = .idle := by
  rcases mem_of_pickFrom h with hnone | hmem
  · cases hnone
  · have hmem := List.mem_filter.mp hmem
    refine ⟨hmem.1, ?_⟩
    have hand := hmem.2
    simp only [decide_eq_true_eq, Entry.idle] at hand
    exact hand.2.1

theorem means_serve {limits : TransferResourceLimits} {s : CacheState} {ticket : Nat}
    {r : CacheRequest} (hopen : s.closed = false) (hhead : s.waiters.head? = some ticket) :
    (s.serve limits r).Means limits s ticket r := by
  unfold CacheState.serve
  cases hsufficient : s.sufficient r with
  | some e =>
    obtain ⟨hmem, hidle, hkey, -⟩ := mem_candidates (mem_of_sufficient hsufficient)
    exact ⟨hopen, hhead, e, hmem, rfl, hidle, hkey⟩
  | none =>
    by_cases hfits : fits limits r (s.growable r) (s.usage none false)
        (s.usage (some r.key) false) = true
    · simp only [hfits, if_true]
      cases hgrow : s.growable r with
      | none =>
        rw [hgrow] at hfits
        exact ⟨hopen, hhead, hfits⟩
      | some e =>
        obtain ⟨hcandidate, hcapacity⟩ := mem_of_growable hgrow
        obtain ⟨hmem, hidle, hkey, hcacheable⟩ := mem_candidates hcandidate
        exact ⟨hopen, hhead, hsufficient, hfits, e, hmem, hgrow, rfl, hidle, hkey, hcapacity,
          hcacheable⟩
    · simp only [hfits, Bool.false_eq_true, if_false]
      cases hvictim : s.victim limits r (s.growable r) with
      | none => trivial
      | some e =>
        obtain ⟨hmem, hidle⟩ := mem_of_victim hvictim
        exact ⟨e, hmem, rfl, hidle⟩

/-- A verdict means what it says. -/
theorem means_admission (limits : TransferResourceLimits) (s : CacheState) (ticket : Nat)
    (r : CacheRequest) (waited late : Bool) :
    (s.admission limits ticket r waited late).Means limits s ticket r := by
  unfold CacheState.admission
  split
  · trivial
  · rename_i hopen
    split
    · trivial
    · split
      · trivial
      · split
        · trivial
        · split
          · exact means_serve (by simpa using hopen) ‹_›
          · trivial

/-! ### Limits -/

/-- The charges of the entries stay within the limits. -/
structure Within (limits : TransferResourceLimits) (entries : List Entry) : Prop where
  contexts : entries.length ≤ limits.maxContexts
  device : ∀ key, (entries.filter fun e => e.key.sameDevice key).length ≤
    limits.maxContextsPerDevice
  workers : total Entry.workers entries ≤ limits.maxBackgroundWorkers
  retained : total Entry.bytes (entries.filter Entry.cacheable) ≤ limits.maxRetainedBytes
  live : total Entry.bytes entries ≤ liveLimit limits

theorem within_nil (limits : TransferResourceLimits) : Within limits [] := by
  constructor <;> simp

theorem fits_spec {limits : TransferResourceLimits} {s : CacheState} {r : CacheRequest}
    {grow : Option Entry}
    (h : fits limits r grow (s.usage none false) (s.usage (some r.key) false) = true) :
    (s.entries.length : Int) + addedContexts grow ≤ limits.maxContexts ∧
    ((s.entries.filter fun e => e.key.sameDevice r.key).length : Int) + addedContexts grow ≤
      limits.maxContextsPerDevice ∧
    (total Entry.workers s.entries : Int) + addedWorkers r grow ≤ limits.maxBackgroundWorkers ∧
    (total Entry.bytes (s.entries.filter Entry.cacheable) : Int) + addedRetained r grow ≤
      limits.maxRetainedBytes ∧
    (total Entry.bytes s.entries : Int) + addedBytes r grow ≤ liveLimit limits := by
  simp only [fits, Bool.and_eq_true, Bool.not_eq_true'] at h
  obtain ⟨⟨⟨⟨hcontexts, hdevice⟩, hworkers⟩, hretained⟩, hlive⟩ := h
  refine ⟨exceeds_eq_false hcontexts, exceeds_eq_false hdevice, ?_, ?_, ?_⟩
  · rw [← workers_usageOf]
    exact exceeds_eq_false hworkers
  · rw [← retained_usageOf]
    exact exceeds_eq_false hretained
  · rw [← live_usageOf]
    exact exceeds_eq_false hlive

theorem length_filter_eq_total (p : Entry → Bool) (entries : List Entry) :
    (entries.filter p).length = total (fun e => if p e then 1 else 0) entries := by
  induction entries with
  | nil => rfl
  | cons e rest ih =>
    rw [total_cons, List.filter_cons]
    split
    · rw [List.length_cons, ih]
      omega
    · rw [ih]
      omega

theorem total_filter (charge : Entry → Nat) (p : Entry → Bool) (entries : List Entry) :
    total charge (entries.filter p) = total (fun e => if p e then charge e else 0) entries := by
  induction entries with
  | nil => rfl
  | cons e rest ih =>
    rw [total_cons, List.filter_cons]
    split
    · rw [total_cons, ih]
    · rw [ih]
      omega

/-- Changes that keep key and charge keep the totals. -/
theorem Within.amend {limits : TransferResourceLimits} {entries : List Entry} {id : Nat}
    {change : Entry → Entry} (h : Within limits entries)
    (hsame : ∀ e ∈ entries, e.id = id → e.SameCharge (change e)) :
    Within limits (Ledger.amend Entry.id entries id change) := by
  have hkeep : ∀ charge : Entry → Nat, (∀ e e', e.SameCharge e' → charge e' = charge e) →
      total charge (Ledger.amend Entry.id entries id change) = total charge entries :=
    fun charge hcharge => total_amend_of_eq fun e he hid => hcharge e _ (hsame e he hid)
  constructor
  · rw [Ledger.amend, List.length_map]
    exact h.contexts
  · intro key
    rw [length_filter_eq_total, hkeep _ fun e e' hs => by rw [hs.key], ← length_filter_eq_total]
    exact h.device key
  · rw [hkeep _ fun e e' hs => hs.workers]
    exact h.workers
  · rw [total_filter, hkeep _ fun e e' hs => by rw [hs.cacheable, hs.bytes], ← total_filter]
    exact h.retained
  · rw [hkeep _ fun e e' hs => hs.bytes]
    exact h.live

theorem Within.strike {limits : TransferResourceLimits} {entries : List Entry}
    (h : Within limits entries) (id : Nat) :
    Within limits (Ledger.strike Entry.id entries id) := by
  have hsub : (Ledger.strike Entry.id entries id).Sublist entries := List.filter_sublist
  constructor
  · exact Nat.le_trans hsub.length_le h.contexts
  · intro key
    exact Nat.le_trans (hsub.filter _).length_le (h.device key)
  · exact Nat.le_trans total_strike_le h.workers
  · rw [total_filter]
    refine Nat.le_trans total_strike_le ?_
    rw [← total_filter]
    exact h.retained
  · exact Nat.le_trans total_strike_le h.live

/-- A new entry was counted before it was made. -/
theorem Within.append {limits : TransferResourceLimits} {s : CacheState} {r : CacheRequest}
    (h : Within limits s.entries) (id generation : Nat)
    (hfits : fits limits r none (s.usage none false) (s.usage (some r.key) false) = true) :
    Within limits (s.entries ++ [Entry.fresh id generation r]) := by
  obtain ⟨hcontexts, hdevice, hworkers, hretained, hlive⟩ := fits_spec hfits
  simp only [addedContexts, addedWorkers, addedRetained, addedBytes] at *
  constructor
  · rw [List.length_append, List.length_singleton]
    omega
  · intro key
    rw [List.filter_append, List.length_append]
    by_cases hsame : r.key.sameDevice key = true
    · have hcongr : (fun e : Entry => e.key.sameDevice key) =
          fun e : Entry => e.key.sameDevice r.key := by
        funext e
        rw [ResourceKey.sameDevice_comm, ← ResourceKey.sameDevice_congr hsame,
          ResourceKey.sameDevice_comm]
      rw [hcongr]
      have hone := List.length_filter_le (fun e : Entry => e.key.sameDevice r.key)
        [Entry.fresh id generation r]
      rw [List.length_singleton] at hone
      omega
    · have hzero : [Entry.fresh id generation r].filter
          (fun e : Entry => e.key.sameDevice key) = [] := by
        simpa [Entry.fresh] using hsame
      rw [hzero]
      exact h.device key
  · rw [total_append]
    simp only [total_cons, total_nil, Entry.fresh]
    omega
  · rw [List.filter_append, total_append]
    have hretain := h.retained
    by_cases hcacheable : r.cacheable = true
    · simp only [hcacheable, if_true, List.filter_cons, List.filter_nil, Entry.fresh, total_cons,
        total_nil] at *
      omega
    · simp only [hcacheable, List.filter_cons, List.filter_nil, Entry.fresh, total_nil,
        Bool.false_eq_true, if_false] at *
      omega
  · rw [total_append]
    simp only [total_cons, total_nil, Entry.fresh]
    omega

/-- Growth was counted as the difference of the two charges. -/
theorem Within.grow {limits : TransferResourceLimits} {s : CacheState} {r : CacheRequest}
    {e : Entry} {change : Entry → Entry} (h : Within limits s.entries)
    (hunique : (s.entries.map Entry.id).Nodup) (he : e ∈ s.entries)
    (hcacheable : e.cacheable = true) (hr : r.cacheable = true)
    (hfits : fits limits r (some e) (s.usage none false) (s.usage (some r.key) false) = true)
    (hbytes : (change e).bytes = r.bytes)
    (hkey : (change e).key = e.key) (hworkers : (change e).workers = e.workers)
    (hkeeps : (change e).cacheable = e.cacheable) :
    Within limits (Ledger.amend Entry.id s.entries e.id change) := by
  obtain ⟨-, -, -, hretained, hlive⟩ := fits_spec hfits
  simp only [addedRetained, addedBytes, hr, if_true] at hretained hlive
  have hmove : ∀ charge : Entry → Nat,
      total charge (Ledger.amend Entry.id s.entries e.id change) + charge e =
        total charge s.entries + charge (change e) := fun charge => total_amend hunique he rfl
  constructor
  · rw [Ledger.amend, List.length_map]
    exact h.contexts
  · intro key
    rw [length_filter_eq_total]
    have := hmove fun d => if d.key.sameDevice key then 1 else 0
    simp only [hkey] at this
    rw [Nat.add_right_cancel this, ← length_filter_eq_total]
    exact h.device key
  · have := hmove Entry.workers
    rw [hworkers] at this
    rw [Nat.add_right_cancel this]
    exact h.workers
  · rw [total_filter] at hretained ⊢
    have := hmove fun d => if d.cacheable then d.bytes else 0
    simp only [hkeeps, hcacheable, if_true, hbytes] at this
    omega
  · have := hmove Entry.bytes
    rw [hbytes] at this
    omega

end SymReloc.Cache
