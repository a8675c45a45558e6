import SymReloc.Cache.Budgets

/-!
# Clearing and closing the cache

A clear starts a new generation and retires the idle entries of the older ones; a lease
of an older generation retires its entry when it comes back.  The generation of an entry
bounds from below the generation in which its context was built, except after the growth
of an idle entry that a clear is about to retire: the entry gets the new generation and
keeps the old context.
-/

namespace SymReloc.Cache

open Ledger

/-! ### The condition -/

/-- The round of a caller grows an idle entry of an older generation: the caller is at the
    head of the queue and not refused, no idle entry of its key is large enough, and the
    largest one, which is older, may grow within the limits. -/
def CacheState.GrowsOlder (limits : TransferResourceLimits) (s : CacheState) (ticket : Nat)
    (r : CacheRequest) (waited late : Bool) : Prop :=
  s.closed = false ∧ s.disabled r.key = false ∧
    fits limits r none (s.usage none true) (s.usage (some r.key) true) = true ∧
    (waited && (late && limits.acquireTimeout.isSome)) = false ∧
    s.waiters.head? = some ticket ∧ s.sufficient r = none ∧
    fits limits r (s.growable r) (s.usage none false) (s.usage (some r.key) false) = true ∧
    ∃ e, s.growable r = some e ∧ e.generation < s.generation

/-- An action that lets no call grow an entry of an older generation. -/
def GrowsCurrent (limits : TransferResourceLimits) (m : Machine) : Action → Prop
  | .arrive _ r => ¬ m.cache.enqueue.GrowsOlder limits m.cache.nextTicket r false false
  | .wake c late => ∀ r ticket waited, m.calls c = .waiting r ticket waited →
      ¬ m.cache.GrowsOlder limits ticket r waited late
  | .lease _ _ => True
  | .teardown _ _ => True
  | .finish _ => True
  | .retired _ => True
  | .clear _ _ => True
  | .resume _ => True

theorem growsOlder_of_admission {limits : TransferResourceLimits} {s : CacheState} {ticket : Nat}
    {r : CacheRequest} {waited late : Bool} {id : Nat} {e : Entry}
    (h : s.admission limits ticket r waited late = .grow id) (hgrow : s.growable r = some e)
    (hgeneration : e.generation < s.generation) : s.GrowsOlder limits ticket r waited late := by
  have hmeans := means_admission limits s ticket r waited late
  rw [h] at hmeans
  obtain ⟨hopen, hhead, hsufficient, hfits, -⟩ := hmeans
  unfold CacheState.admission at h
  split at h
  · cases h
  · split at h
    · cases h
    · split at h
      · cases h
      · split at h
        · cases h
        · exact ⟨hopen, by simpa using ‹¬ s.disabled r.key = true›,
            by simpa using ‹¬ fits _ _ _ _ _ = false›,
            by simpa only [Bool.not_eq_true] using ‹¬ (waited && (late && _)) = true›, hhead,
            hsufficient, hfits, e, hgrow, hgeneration⟩

/-! ### Generations -/

/-- The clear that a call is in the middle of. -/
def Call.cutoff : Call → Option (Bool × Nat)
  | .outside => none
  | .waiting _ _ _ => none
  | .leased _ _ _ _ => none
  | .retiring _ .done => none
  | .retiring _ (.acquire _ _ _) => none
  | .retiring _ (.clear closing cutoff) => some (closing, cutoff)
  | .clearing closing cutoff => some (closing, cutoff)

/-- What an entry is like in a cache whose clears have reached a generation; the age of
    its context is known in a run that grows `current` entries only. -/
structure Entry.Aged (current : Prop) (s : CacheState) (e : Entry) : Prop where
  generation_le : e.generation ≤ s.generation
  born_ge : current → ∀ k, e.context = some k → e.generation ≤ k.born
  idle_ge : e.state = .idle → s.cleared ≤ e.generation
  idle_lt : s.closed = true → e.state = .idle → e.generation < s.generation

/-- What a call in the middle of a clear, or with a lease, knows of generations. -/
structure Call.Aged (s : CacheState) (call : Call) : Prop where
  cutoff_le : ∀ closing cutoff, call.cutoff = some (closing, cutoff) →
    cutoff ≤ s.generation ∧ (closing = true → s.closed = true ∧ cutoff = s.generation)
  floor_le : ∀ r id floor phase, call = .leased r id floor phase →
    ∀ e ∈ s.entries, e.id = id → floor ≤ e.generation

structure Aged (current : Prop) (m : Machine) : Prop where
  cleared_le : m.cache.cleared ≤ m.cache.generation
  entries : ∀ e ∈ m.cache.entries, e.Aged current m.cache
  calls : ∀ c, (m.calls c).Aged m.cache
  shut : m.cache.shut = true → m.cache.closed = true ∧ m.cache.entries = []

theorem Call.aged_plain {call : Call} (s : CacheState) (hcutoff : call.cutoff = none)
    (hholds : call.holds = none) : call.Aged s where
  cutoff_le := by simp [hcutoff]
  floor_le := by
    intro r id floor phase hcall
    simp [hcall, Call.holds] at hholds

namespace Aged

variable {current : Prop} {limits : TransferResourceLimits} {m : Machine} {c id ticket : Nat}
  {e : Entry} {r : CacheRequest}

theorem start : Aged current .start where
  cleared_le := Nat.le_refl _
  entries := by simp [Machine.start, CacheState.empty]
  calls := fun c => Call.aged_plain _ rfl rfl
  shut := by simp [Machine.start, CacheState.empty]

/-- A cache with the same flags, in which every entry keeps its place and generation. -/
theorem next (h : Aged current m) {cache : CacheState} {call : Call}
    (hcleared : cache.cleared = m.cache.cleared)
    (hgeneration : cache.generation = m.cache.generation)
    (hclosed : cache.closed = m.cache.closed) (hshut : cache.shut = m.cache.shut)
    (hentries : ∀ e ∈ cache.entries, e.Aged current cache)
    (hfrom : ∀ e ∈ cache.entries, (∃ d ∈ m.cache.entries, d.id = e.id ∧
      d.generation ≤ e.generation) ∨ ∀ d, (m.calls d).holds ≠ some e.id)
    (hcall : call.Aged cache)
    (hempty : m.cache.closed = true → m.cache.entries = [] → cache.entries = []) :
    Aged current { cache, calls := Function.update m.calls c call } := by
  constructor
  · show cache.cleared ≤ cache.generation
    rw [hcleared, hgeneration]
    exact h.cleared_le
  · exact hentries
  · intro d
    show (Function.update m.calls c call d).Aged cache
    by_cases hd : d = c
    · subst hd
      rw [Function.update_self]
      exact hcall
    · rw [Function.update_of_ne hd]
      constructor
      · rw [hgeneration, hclosed]
        exact (h.calls d).cutoff_le
      · intro r id floor phase hleased e he hid
        rcases hfrom e he with ⟨d', hd', hid', hle⟩ | hnobody
        · exact Nat.le_trans ((h.calls d).floor_le r id floor phase hleased d' hd'
            (hid'.trans hid)) hle
        · exact absurd (by simp [hleased, Call.holds, hid]) (hnobody d)
  · show cache.shut = true → cache.closed = true ∧ cache.entries = []
    rw [hshut, hclosed]
    intro hs
    obtain ⟨hc, he⟩ := h.shut hs
    exact ⟨hc, hempty hc he⟩

theorem aged_congr {s s' : CacheState} (h : e.Aged current s) (hcleared : s'.cleared = s.cleared)
    (hgeneration : s'.generation = s.generation) (hclosed : s'.closed = s.closed) :
    e.Aged current s' where
  generation_le := by rw [hgeneration]; exact h.generation_le
  born_ge := h.born_ge
  idle_ge := by rw [hcleared]; exact h.idle_ge
  idle_lt := by rw [hclosed, hgeneration]; exact h.idle_lt

/-- Change an entry and keep its place and generation. -/
theorem touch (h : Aged current m) (hinv : Invariant limits m) {cache : CacheState}
    {change : Entry → Entry} {call : Call} (hentries : cache.entries = m.cache.entries)
    (hcleared : cache.cleared = m.cache.cleared)
    (hgeneration : cache.generation = m.cache.generation)
    (hclosed : cache.closed = m.cache.closed) (hshut : cache.shut = m.cache.shut)
    (he : e ∈ m.cache.entries) (hid : (change e).id = e.id)
    (hsame : e.generation ≤ (change e).generation)
    (hchange : (change e).Aged current m.cache)
    (hcall : call.Aged { cache with entries := amend Entry.id cache.entries e.id change }) :
    Aged current ({ m with cache }.touch c e.id change call) := by
  have heach : ∀ d ∈ amend Entry.id cache.entries e.id change,
      d = change e ∨ d ∈ m.cache.entries := by
    intro d hd
    obtain ⟨d', hd', heq⟩ := mem_amend.mp hd
    rw [hentries] at hd'
    split at heq
    · rw [eq_of_number_eq hinv.owned.unique hd' he ‹_›] at heq
      exact .inl heq.symm
    · exact .inr (heq ▸ hd')
  refine h.next hcleared hgeneration hclosed hshut ?_ ?_ hcall ?_
  · intro d hd
    rcases heach d hd with heq | hold
    · rw [heq]
      exact aged_congr hchange hcleared hgeneration hclosed
    · exact aged_congr (h.entries d hold) hcleared hgeneration hclosed
  · intro d hd
    rcases heach d hd with heq | hold
    · exact .inl ⟨e, he, by rw [heq, hid], by rw [heq]; exact hsame⟩
    · exact .inl ⟨d, hold, rfl, Nat.le_refl _⟩
  · intro _ hnone
    rw [hnone] at he
    cases he

/-- The call changes, and has nothing. -/
theorem setCall (h : Aged current m) {cache : CacheState} {call : Call}
    (hentries : cache.entries = m.cache.entries) (hcleared : cache.cleared = m.cache.cleared)
    (hgeneration : cache.generation = m.cache.generation)
    (hclosed : cache.closed = m.cache.closed) (hshut : cache.shut = m.cache.shut)
    (hcall : call.Aged cache) :
    Aged current ({ m with cache }.setCall c call) := by
  refine h.next hcleared hgeneration hclosed hshut ?_ ?_ hcall ?_
  · intro e he
    exact aged_congr (h.entries e (hentries ▸ he)) hcleared hgeneration hclosed
  · intro e he
    exact .inl ⟨e, hentries ▸ he, rfl, Nat.le_refl _⟩
  · intro _ hnone
    exact hentries.trans hnone

/-- An idle entry is taken for retirement. -/
theorem evict (h : Aged current m) (hinv : Invariant limits m) {resume : Resume}
    (he : e ∈ m.cache.entries) (hcall : ∀ closing cutoff,
      (Call.retiring e.id resume).cutoff = some (closing, cutoff) →
        cutoff ≤ m.cache.generation ∧
          (closing = true → m.cache.closed = true ∧ cutoff = m.cache.generation)) :
    Aged current (m.touch c e.id (setState .retiring) (.retiring e.id resume)) := by
  have hold := h.entries e he
  exact h.touch hinv rfl rfl rfl rfl rfl he rfl (Nat.le_refl _)
    ⟨hold.generation_le, hold.born_ge, (fun hs => by cases hs), (fun _ hs => by cases hs)⟩
    ⟨hcall, fun _ _ _ _ heq => by cases heq⟩

/-! ### Acquisition -/

/-- The entry of a lease, the only one whose generation may be new. -/
theorem granted (h : Aged current m) (hinv : Invariant limits m) (change : Entry → Entry)
    {phase : Phase} {cache : CacheState} (hopen : m.cache.closed = false)
    (hcache : cache.entries = amend Entry.id m.cache.entries e.id change)
    (hcleared : cache.cleared = m.cache.cleared)
    (hgeneration : cache.generation = m.cache.generation)
    (hclosed : cache.closed = m.cache.closed) (hshut : cache.shut = m.cache.shut)
    (he : e ∈ m.cache.entries) (hid : (change e).id = e.id)
    (hsame : e.generation ≤ (change e).generation)
    (hle : (change e).generation ≤ m.cache.generation)
    (hcleared_le : m.cache.cleared ≤ (change e).generation)
    (hborn : current → ∀ k, (change e).context = some k → (change e).generation ≤ k.born)
    (hstate : (change e).state ≠ .idle) :
    Aged current ({ m with cache }.setCall c (.leased r e.id m.cache.cleared phase)) := by
  have heach : ∀ d ∈ cache.entries, d = change e ∨ (d ∈ m.cache.entries ∧ d.id ≠ e.id) := by
    intro d hd
    rw [hcache] at hd
    obtain ⟨d', hd', heq⟩ := mem_amend.mp hd
    split at heq
    · rw [eq_of_number_eq hinv.owned.unique hd' he ‹_›] at heq
      exact .inl heq.symm
    · exact .inr ⟨heq ▸ hd', heq ▸ ‹_›⟩
  have hnew : (change e).Aged current m.cache :=
    ⟨hle, hborn, fun hs => absurd hs hstate, fun _ hs => absurd hs hstate⟩
  refine h.next hcleared hgeneration hclosed hshut ?_ ?_ ⟨by simp [Call.cutoff], ?_⟩ ?_
  · intro d hd
    rcases heach d hd with heq | ⟨hold, -⟩
    · rw [heq]
      exact aged_congr hnew hcleared hgeneration hclosed
    · exact aged_congr (h.entries d hold) hcleared hgeneration hclosed
  · intro d hd
    rcases heach d hd with heq | ⟨hold, -⟩
    · exact .inl ⟨e, he, by rw [heq, hid], by rw [heq]; exact hsame⟩
    · exact .inl ⟨d, hold, rfl, Nat.le_refl _⟩
  · intro r' id floor phase' heq d hd hd'
    cases heq
    rcases heach d hd with heq | ⟨-, hne⟩
    · rw [heq]
      exact hcleared_le
    · exact absurd hd' hne
  · intro hc
    simp [hopen] at hc

theorem hit (h : Aged current m) (hinv : Invariant limits m) (hopen : m.cache.closed = false)
    (he : e ∈ m.cache.entries) (hidle : e.state = .idle) :
    Aged current ({ m with cache := m.cache.serveHit ticket e.id }.setCall c
      (.leased r e.id m.cache.cleared .executing)) := by
  have hold := h.entries e he
  exact h.granted hinv (setState .leased) hopen rfl rfl rfl rfl rfl he rfl
    (Nat.le_refl _) hold.generation_le (hold.idle_ge hidle) hold.born_ge
    (fun hs => by cases hs)

/-- An entry that is grown in its own generation. -/
theorem grow (h : Aged current m) (hinv : Invariant limits m) (hopen : m.cache.closed = false)
    (he : e ∈ m.cache.entries) (hcurrent : current → ¬ e.generation < m.cache.generation) :
    Aged current ({ m with cache := m.cache.serveGrow ticket e.id r }.setCall c
      (.leased r e.id m.cache.cleared .constructing)) := by
  have hold := h.entries e he
  have heq : current → m.cache.generation = e.generation := fun hc =>
    Nat.le_antisymm (Nat.not_lt.mp (hcurrent hc)) hold.generation_le
  exact h.granted hinv (e := e)
    (fun e => { e with
      capacity := r.slotCapacity, bytes := r.bytes, state := .building,
      generation := m.cache.generation })
    hopen rfl rfl rfl rfl rfl he rfl hold.generation_le (Nat.le_refl _) h.cleared_le
    (fun hc k hk => by rw [heq hc]; exact hold.born_ge hc k hk) (fun hs => by cases hs)

theorem miss (h : Aged current m) (hinv : Invariant limits m) (hopen : m.cache.closed = false) :
    Aged current ({ m with cache := m.cache.serveMiss ticket r }.setCall c
      (.leased r m.cache.nextId m.cache.cleared .constructing)) := by
  have heach : ∀ d ∈ (m.cache.serveMiss ticket r).entries,
      d ∈ m.cache.entries ∨ d = Entry.fresh m.cache.nextId m.cache.generation r := by
    intro d hd
    rcases List.mem_append.mp hd with hold | hnew
    · exact .inl hold
    · exact .inr (List.mem_singleton.mp hnew)
  refine h.next rfl rfl rfl rfl ?_ ?_ ⟨by simp [Call.cutoff], ?_⟩ ?_
  · intro d hd
    rcases heach d hd with hold | hnew
    · exact aged_congr (h.entries d hold) rfl rfl rfl
    · subst hnew
      exact ⟨Nat.le_refl _, (fun _ k hk => by cases hk), (fun hs => by cases hs),
        (fun _ hs => by cases hs)⟩
  · intro d hd
    rcases heach d hd with hold | hnew
    · exact .inl ⟨d, hold, rfl, Nat.le_refl _⟩
    · subst hnew
      refine .inr fun d hheld => ?_
      obtain ⟨e, he, hid⟩ := hinv.owned.holds_entry hheld
      exact absurd (hinv.owned.below e he) (by rw [hid]; exact Nat.lt_irrefl _)
  · intro r' id floor phase heq d hd hid
    cases heq
    rcases heach d hd with hold | hnew
    · exact absurd (hinv.owned.below d hold) (by rw [hid]; exact Nat.lt_irrefl _)
    · subst hnew
      exact h.cleared_le
  · intro hc
    simp [hopen] at hc

/-- A round of `acquire` that grows no older entry. -/
theorem acquireRound (h : Aged current m) (hinv : Invariant limits m) {waited late : Bool}
    (hcurrent : current → ¬ m.cache.GrowsOlder limits ticket r waited late) :
    Aged current (m.acquireRound limits c r ticket waited late) := by
  have hmeans := means_admission limits m.cache ticket r waited late
  unfold Machine.acquireRound
  cases hverdict : m.cache.admission limits ticket r waited late with
  | refused reason =>
    exact h.setCall rfl rfl rfl rfl rfl (Call.aged_plain _ rfl rfl)
  | hit id =>
    rw [hverdict] at hmeans
    obtain ⟨hopen, -, e, he, rfl, hidle, -⟩ := hmeans
    exact h.hit hinv hopen he hidle
  | grow id =>
    rw [hverdict] at hmeans
    obtain ⟨hopen, -, -, -, e, he, hgrow, rfl, -⟩ := hmeans
    exact h.grow hinv hopen he fun hc hlt =>
      hcurrent hc (growsOlder_of_admission hverdict hgrow hlt)
  | miss =>
    rw [hverdict] at hmeans
    exact h.miss hinv hmeans.1
  | evict id =>
    rw [hverdict] at hmeans
    obtain ⟨e, he, rfl, -⟩ := hmeans
    exact h.evict hinv he fun closing cutoff hcutoff => by simp [Call.cutoff] at hcutoff
  | wait => exact h.setCall rfl rfl rfl rfl rfl (Call.aged_plain _ rfl rfl)

/-! ### Clearing -/

/-- The start of a clear: every entry is of an older generation now. -/
theorem cutOff (h : Aged current m) (closing : Bool) :
    Aged current { m with cache := m.cache.cutOff closing } ∧
      (closing = true → (m.cache.cutOff closing).closed = true) := by
  have hle : m.cache.generation ≤ (m.cache.cutOff closing).generation := by
    simp only [CacheState.cutOff]
    split <;> omega
  refine ⟨⟨Nat.le_trans h.cleared_le hle, ?_, ?_, ?_⟩, fun hc => by simp [CacheState.cutOff, hc]⟩
  · intro e he
    have hold := h.entries e he
    refine ⟨Nat.le_trans hold.generation_le hle, hold.born_ge, hold.idle_ge, fun _ hidle => ?_⟩
    cases hclosed : m.cache.closed with
    | true =>
      show e.generation < if m.cache.closed then _ else _
      rw [hclosed]
      exact hold.idle_lt hclosed hidle
    | false =>
      show e.generation < if m.cache.closed then _ else _
      rw [hclosed]
      exact Nat.lt_succ_of_le hold.generation_le
  · intro c
    refine ⟨fun closing' cutoff hcutoff => ?_, (h.calls c).floor_le⟩
    obtain ⟨hcut, hclosing⟩ := (h.calls c).cutoff_le closing' cutoff hcutoff
    refine ⟨Nat.le_trans hcut hle, fun hc => ?_⟩
    obtain ⟨hclosed, heq⟩ := hclosing hc
    simp [CacheState.cutOff, hclosed, heq]
  · intro hshut
    obtain ⟨hclosed, hnone⟩ := h.shut hshut
    exact ⟨by simp [CacheState.cutOff, hclosed], hnone⟩

theorem eq_nil_of_usage {s : CacheState} (hbuilding : (s.usage none false).building = 0)
    (hleased : (s.usage none false).leased = 0) (hretiring : (s.usage none false).retiring = 0)
    (hquarantined : (s.usage none false).quarantined = 0)
    (hidle : ∀ e ∈ s.entries, e.state ≠ .idle) : s.entries = [] := by
  refine List.eq_nil_iff_forall_not_mem.mpr fun e he => ?_
  have hnone : ∀ state, countOf state s.entries = 0 → e.state ≠ state := by
    intro state hcount
    simpa using List.countP_eq_zero.mp hcount e he
  cases hstate : e.state with
  | building => exact hnone _ hbuilding hstate
  | leased => exact hnone _ hleased hstate
  | retiring => exact hnone _ hretiring hstate
  | quarantined => exact hnone _ hquarantined hstate
  | idle => exact hidle e he hstate

/-- No entry is stale: the idle ones are at least as young as the clear. -/
theorem not_lt_of_stale {s : CacheState} {cutoff : Nat} (h : s.stale cutoff = none)
    (he : e ∈ s.entries) (hidle : e.state = .idle) : cutoff ≤ e.generation := by
  have := List.find?_eq_none.mp h e he
  simpa [Entry.idle, hidle] using this

theorem clearRound (h : Aged current m) (hinv : Invariant limits m) {closing : Bool} {cutoff : Nat}
    (hcut : cutoff ≤ m.cache.generation)
    (hclosing : closing = true → m.cache.closed = true ∧ cutoff = m.cache.generation) :
    Aged current (m.clearRound c closing cutoff) := by
  unfold Machine.clearRound
  cases hstale : m.cache.stale cutoff with
  | some e =>
    obtain ⟨he, -⟩ := Invariant.mem_of_stale hstale
    refine h.evict hinv he fun closing' cutoff' heq => ?_
    cases heq
    exact ⟨hcut, hclosing⟩
  | none =>
    dsimp only
    split
    · constructor
      · exact Nat.max_le.mpr ⟨h.cleared_le, hcut⟩
      · intro e he
        have hold := h.entries e he
        exact ⟨hold.generation_le, hold.born_ge,
          fun hidle => Nat.max_le.mpr ⟨hold.idle_ge hidle, not_lt_of_stale hstale he hidle⟩,
          hold.idle_lt⟩
      · intro d
        show (Function.update m.calls c Call.outside d).Aged _
        by_cases hd : d = c
        · subst hd
          rw [Function.update_self]
          exact Call.aged_plain _ rfl rfl
        · rw [Function.update_of_ne hd]
          exact ⟨(h.calls d).cutoff_le, (h.calls d).floor_le⟩
      · exact h.shut
    · rename_i hclose
      obtain ⟨hclosed, heq⟩ := hclosing (by simpa using hclose)
      split
      · refine h.setCall rfl rfl rfl rfl rfl ⟨fun closing' cutoff' hcutoff => ?_, ?_⟩
        · cases hcutoff
          exact ⟨hcut, hclosing⟩
        · exact fun _ _ _ _ hcall => by cases hcall
      · rename_i hbusy
        simp only [not_or, Decidable.not_not] at hbusy
        split
        · exact h.setCall rfl rfl rfl rfl rfl (Call.aged_plain _ rfl rfl)
        · rename_i hquarantined
          have hempty : m.cache.entries = [] := by
            refine eq_nil_of_usage hbusy.1 hbusy.2.1 hbusy.2.2.1 (by simpa using hquarantined)
              fun e he hidle => ?_
            have hlt := (h.entries e he).idle_lt hclosed hidle
            have hge := not_lt_of_stale hstale he hidle
            omega
          have hplain : Aged current (m.setCall c .outside) :=
            h.setCall rfl rfl rfl rfl rfl (Call.aged_plain _ rfl rfl)
          exact ⟨hplain.cleared_le, fun e he => aged_congr (hplain.entries e he) rfl rfl rfl,
            fun d => ⟨(hplain.calls d).cutoff_le, (hplain.calls d).floor_le⟩,
            fun _ => ⟨hclosed, hempty⟩⟩

theorem clearStart (h : Aged current m) (hinv : Invariant limits m) {closing : Bool} :
    Aged current (m.clearStart c closing) := by
  unfold Machine.clearStart
  split
  · exact h
  · split
    · exact h
    · obtain ⟨haged, hclosed⟩ := h.cutOff closing
      have hcut : Invariant limits { m with cache := m.cache.cutOff closing } :=
        hinv.withCache rfl rfl rfl rfl rfl
      exact haged.clearRound hcut (Nat.le_refl _) fun hc => ⟨hclosed hc, rfl⟩

/-! ### Leases -/

theorem born_waitEvent {k k' : TransferContext} {pool : PinnedBufferPool} {slot : Nat}
    {healthy : Bool} (hk : e.context = some k)
    (hk' : (e.waitEvent k pool slot healthy).context = some k') :
    ∃ k, e.context = some k ∧ k'.born = k.born := by
  unfold Entry.waitEvent at hk'
  split at hk'
  · exact ⟨k', hk', rfl⟩
  · split at hk'
    · exact ⟨k', hk', rfl⟩
    · cases hk'
      exact ⟨k, hk, rfl⟩

/-- A step of a lease keeps the context, or builds it in the present generation. -/
theorem leaseStep_born {s : CacheState} {phase phase' : Phase} {e' : Entry} {a : LeaseAction}
    (h : leaseStep s r phase e a = some (phase', e')) (k' : TransferContext)
    (hk' : e'.context = some k') :
    (∃ k, e.context = some k ∧ k'.born = k.born) ∨ k'.born = s.generation := by
  unfold leaseStep at h
  split at h
  case h_1 =>
    cases h
    exact .inl ⟨k', hk', rfl⟩
  case h_2 hk =>
    split at h
    · cases h
      cases hk'
      exact .inr rfl
    · cases h
      exact .inl ⟨k', hk', rfl⟩
  case h_3 k hk =>
    split at h
    · cases h
      exact .inl ⟨k', hk', rfl⟩
    · split at h
      · cases h
        cases hk'
        exact .inl ⟨k, hk, rfl⟩
      · cases h
        cases hk'
        exact .inl ⟨k, hk, rfl⟩
  case h_4 k hk =>
    split at h
    · cases h
      exact .inl ⟨k', hk', rfl⟩
    · cases h
      cases hk'
      exact .inl ⟨k, hk, rfl⟩
  case h_5 k hk =>
    split at h
    · split at h
      · cases h
        cases hk'
        exact .inl ⟨k, hk, rfl⟩
      · cases h
        exact .inl ⟨k', hk', rfl⟩
    · cases h
  case h_6 k hk =>
    split at h
    · cases h
    · split at h
      · cases h
        exact .inl ⟨k', hk', rfl⟩
      · cases h
        cases hk'
        exact .inl ⟨k, hk, rfl⟩
  case h_7 k hk =>
    split at h
    · cases h
      cases hk'
      exact .inl ⟨k, hk, rfl⟩
    · cases h
      cases hk'
      exact .inl ⟨k, hk, rfl⟩
  case h_8 k hk =>
    split at h
    · cases h
      exact .inl ⟨k', hk', rfl⟩
    · split at h
      · cases h
        exact .inl ⟨k', hk', rfl⟩
      · cases h
        exact .inl ⟨k', hk', rfl⟩
  case h_9 k hk =>
    split at h
    · cases h
    · cases h
      cases hk'
      exact .inl ⟨k, hk, rfl⟩
  case h_10 k hk =>
    split at h
    · cases h
    · cases h
      exact .inl (born_waitEvent hk hk')
  case h_11 k hk =>
    split at h
    · cases h
      cases hk'
      exact .inl ⟨k, hk, rfl⟩
    · cases h
      cases hk'
      exact .inl ⟨k, hk, rfl⟩
    · cases h
      cases hk'
      exact .inl ⟨k, hk, rfl⟩
  case h_12 => cases h

theorem teardown_born {e' : Entry} {destroy : Bool} (h : e.teardown destroy = some e')
    (k' : TransferContext) (hk' : e'.context = some k') :
    ∃ k, e.context = some k ∧ k'.born = k.born := by
  unfold Entry.teardown at h
  cases hk : e.context with
  | none => simp [hk] at h
  | some k =>
    simp only [hk] at h
    split at h
    · cases h
    · split at h
      · cases h
        cases hk'
      · split at h
        · cases h
        · cases h
          cases hk'
          exact ⟨k, rfl, rfl⟩

/-- A call that goes on with the entry it has, which is not idle. -/
theorem own (h : Aged current m) (hinv : Invariant limits m) {e' : Entry} {call : Call}
    (he : m.cache.entryOf id = some e) (hsame : e.SameCharge e') (hstate : e'.state ≠ .idle)
    (hborn : current → ∀ k', e'.context = some k' → e.generation ≤ k'.born)
    (hcutoff : ∀ closing cutoff, call.cutoff = some (closing, cutoff) →
      (m.calls c).cutoff = some (closing, cutoff))
    (hfloor : ∀ r id' floor phase, call = .leased r id' floor phase →
      id' = id ∧ ∃ phase', m.calls c = .leased r id floor phase') :
    Aged current (m.touch c id (fun _ => e') call) := by
  obtain ⟨hmem, hid⟩ := Owned.mem_of_entryOf he
  subst hid
  show Aged current ({ m with cache := m.cache }.touch c e.id (fun _ => e') call)
  refine h.touch hinv rfl rfl rfl rfl rfl hmem hsame.id
    (Nat.le_of_eq hsame.generation.symm) ?_ ⟨?_, ?_⟩
  · refine ⟨?_, fun hc k' hk' => ?_, fun hs => absurd hs hstate, fun _ hs => absurd hs hstate⟩
    · rw [hsame.generation]
      exact (h.entries e hmem).generation_le
    · rw [hsame.generation]
      exact hborn hc k' hk'
  · exact fun closing cutoff hcut => (h.calls c).cutoff_le closing cutoff (hcutoff _ _ hcut)
  · intro r id' floor phase hcall d hd hid
    obtain ⟨rfl, phase', hc⟩ := hfloor r id' floor phase hcall
    have hle := (h.calls c).floor_le r e.id floor phase' hc e hmem rfl
    obtain ⟨d', hd', heq⟩ := mem_amend.mp hd
    split at heq
    · rw [← heq, hsame.generation]
      exact hle
    · subst heq
      exact absurd hid ‹_›

theorem lease (h : Aged current m) (hinv : Invariant limits m) {floor : Nat} {phase phase' : Phase}
    {a : LeaseAction} {e' : Entry} (hc : m.calls c = .leased r id floor phase)
    (he : m.cache.entryOf id = some e)
    (hstep : leaseStep m.cache r phase e a = some (phase', e')) :
    Aged current (m.touch c id (fun _ => e') (.leased r id floor phase')) := by
  obtain ⟨hmem, -⟩ := Owned.mem_of_entryOf he
  obtain ⟨hkey, hfits⟩ := hinv.owned.leased_entry hc he
  obtain ⟨-, hfits', hsame⟩ := leaseStep_keeps (hinv.owned.sound e hmem) hfits hkey hstep
  have hold := h.entries e hmem
  refine h.own hinv he hsame (fun hidle => ?_) (fun hcurrent k' hk' => ?_)
    (fun closing cutoff hcut => by cases hcut) fun r id' floor phase heq => ?_
  · cases phase' <;> simp_all [Phase.Fits]
  · rcases leaseStep_born hstep k' hk' with ⟨k, hk, hborn⟩ | hborn
    · rw [hborn]
      exact hold.born_ge hcurrent k hk
    · rw [hborn]
      exact hold.generation_le
  · cases heq
    exact ⟨rfl, _, hc⟩

theorem teardown (h : Aged current m) (hinv : Invariant limits m) {call : Call} {destroy : Bool}
    {e' : Entry} (hc : m.calls c = call) (hholds : call.holds = some id)
    (he : m.cache.entryOf id = some e) (hstep : e.teardown destroy = some e') :
    Aged current (m.touch c id (fun _ => e') call) := by
  subst hc
  obtain ⟨hmem, hid⟩ := Owned.mem_of_entryOf he
  obtain ⟨hsame, hstate⟩ := teardown_sameCharge hstep
  refine h.own hinv he hsame (fun hidle => ?_) (fun hcurrent k' hk' => ?_)
    (fun closing cutoff hcut => hcut) fun r id' floor phase heq => ?_
  · exact hinv.owned.free_of_idle hmem (hstate.symm.trans hidle) c (hid ▸ hholds)
  · obtain ⟨k, hk, hborn⟩ := teardown_born hstep k' hk'
    rw [hborn]
    exact (h.entries e hmem).born_ge hcurrent k hk
  · rw [heq] at hholds
    cases hholds
    exact ⟨rfl, phase, heq⟩

/-! ### Finishing and retiring -/

theorem finish (h : Aged current m) (hinv : Invariant limits m) {healthy : Bool}
    (he : e ∈ m.cache.entries) : Aged current (m.finish c e healthy) := by
  have hold := h.entries e he
  unfold Machine.finish
  split
  · rename_i hidle
    obtain ⟨-, -, hopen, hgeneration, -⟩ := hidle
    refine h.touch hinv rfl rfl rfl rfl rfl he rfl (Nat.le_refl _)
      ⟨hold.generation_le, hold.born_ge, fun _ => ?_, fun hclosed => ?_⟩
      (Call.aged_plain _ rfl rfl)
    · show m.cache.cleared ≤ e.generation
      rw [hgeneration]
      exact h.cleared_le
    · simp [hopen] at hclosed
  · exact h.evict hinv he fun closing cutoff hcutoff => by cases hcutoff

/-- Entries that go away, and a call that goes on. -/
theorem strike (h : Aged current m) {cache : CacheState} {call : Call}
    (hentries : ∀ e ∈ cache.entries, e ∈ m.cache.entries)
    (hcleared : cache.cleared = m.cache.cleared)
    (hgeneration : cache.generation = m.cache.generation)
    (hclosed : cache.closed = m.cache.closed) (hshut : cache.shut = m.cache.shut)
    (hcall : call.Aged cache) : Aged current ({ m with cache }.setCall c call) := by
  refine h.next hcleared hgeneration hclosed hshut ?_ ?_ hcall ?_
  · intro e he
    exact aged_congr (h.entries e (hentries e he)) hcleared hgeneration hclosed
  · intro e he
    exact .inl ⟨e, hentries e he, rfl, Nat.le_refl _⟩
  · intro _ hnone
    refine List.eq_nil_iff_forall_not_mem.mpr fun e he => ?_
    have := hentries e he
    simp [hnone] at this

/-- What follows a retirement knows of generations what the retirement knew. -/
theorem resume (h : Aged current m) {resume : Resume} (hc : m.calls c = .retiring id resume)
    {cache : CacheState} (hgeneration : cache.generation = m.cache.generation)
    (hclosed : cache.closed = m.cache.closed) : resume.call.Aged cache := by
  cases resume with
  | done => exact Call.aged_plain _ rfl rfl
  | acquire r ticket waited => exact Call.aged_plain _ rfl rfl
  | clear closing cutoff =>
    refine ⟨fun closing' cutoff' heq => ?_, fun _ _ _ _ heq => by cases heq⟩
    cases heq
    rw [hgeneration, hclosed]
    exact (h.calls c).cutoff_le closing cutoff (by rw [hc]; rfl)

theorem retired (h : Aged current m) (hinv : Invariant limits m) {resume : Resume} {m' : Machine}
    (hc : m.calls c = .retiring id resume) (he : e ∈ m.cache.entries)
    (hstep : m.retired c e resume = some m') : Aged current m' := by
  have hold := h.entries e he
  unfold Machine.retired at hstep
  split at hstep
  · cases hstep
    exact h.strike (fun d hd => (mem_strike.mp hd).1) rfl rfl rfl rfl (h.resume hc rfl rfl)
  · split at hstep
    · cases hstep
      exact h.touch hinv rfl rfl rfl rfl rfl he rfl (Nat.le_refl _)
        ⟨hold.generation_le, hold.born_ge, (fun hs => by cases hs), (fun _ hs => by cases hs)⟩
        (h.resume hc rfl rfl)
    · cases hstep

theorem enqueue (h : Aged current m) : Aged current { m with cache := m.cache.enqueue } where
  cleared_le := h.cleared_le
  entries := fun e he => aged_congr (h.entries e he) rfl rfl rfl
  calls := fun c => ⟨(h.calls c).cutoff_le, (h.calls c).floor_le⟩
  shut := h.shut

/-- Every action that grows no older entry keeps the generations in order. -/
theorem step (h : Aged current m) (hinv : Invariant limits m) {a : Action} {m' : Machine}
    (hcurrent : current → GrowsCurrent limits m a) (hstep : Cache.step limits m a = some m') :
    Aged current m' := by
  cases a with
  | arrive c r =>
    simp only [Cache.step] at hstep
    split at hstep <;> cases hstep
    exact h.enqueue.acquireRound hinv.enqueue hcurrent
  | wake c late =>
    simp only [Cache.step] at hstep
    split at hstep <;> cases hstep
    exact h.acquireRound hinv fun hc => hcurrent hc _ _ _ ‹_›
  | lease c a =>
    simp only [Cache.step] at hstep
    split at hstep
    · simp only [Option.bind_eq_bind, Option.bind_eq_some_iff, Option.some.injEq,
        Prod.exists] at hstep
      obtain ⟨e, he, phase', e', hlease, rfl⟩ := hstep
      exact h.lease hinv ‹_› he hlease
    · cases hstep
  | teardown c destroy =>
    simp only [Cache.step] at hstep
    split at hstep
    · simp only [Option.bind_eq_bind, Option.bind_eq_some_iff, Option.some.injEq] at hstep
      obtain ⟨e, he, e', hdown, rfl⟩ := hstep
      exact h.teardown hinv ‹_› rfl he hdown
    · simp only [Option.bind_eq_bind, Option.bind_eq_some_iff, Option.some.injEq] at hstep
      obtain ⟨e, he, e', hdown, rfl⟩ := hstep
      exact h.teardown hinv ‹_› rfl he hdown
    · cases hstep
  | finish c =>
    simp only [Cache.step] at hstep
    split at hstep
    · simp only [Option.bind_eq_bind, Option.bind_eq_some_iff, Option.some.injEq] at hstep
      obtain ⟨e, he, rfl⟩ := hstep
      exact h.finish hinv (Owned.mem_of_entryOf he).1
    · cases hstep
  | retired c =>
    simp only [Cache.step] at hstep
    split at hstep
    · simp only [Option.bind_eq_bind, Option.bind_eq_some_iff] at hstep
      obtain ⟨e, he, hretired⟩ := hstep
      exact h.retired hinv ‹_› (Owned.mem_of_entryOf he).1 hretired
    · cases hstep
  | clear c closing =>
    simp only [Cache.step] at hstep
    split at hstep <;> cases hstep
    exact h.clearStart hinv
  | resume c =>
    simp only [Cache.step] at hstep
    split at hstep <;> cases hstep
    rename_i closing cutoff hc
    obtain ⟨hcut, hclosing⟩ := (h.calls c).cutoff_le closing cutoff (by rw [hc]; rfl)
    exact h.clearRound hinv hcut hclosing

end Aged

/-! ### After a close -/

/-- After a successful close the queue is empty between the lock sections. -/
def Quiet (s : CacheState) : Prop := s.shut = true → s.closed = true ∧ s.waiters = []

theorem refused_of_closed (limits : TransferResourceLimits) {s : CacheState} (h : s.closed = true)
    (ticket : Nat) (r : CacheRequest) (waited late : Bool) :
    ∃ reason, s.admission limits ticket r waited late = .refused reason :=
  ⟨_, by unfold CacheState.admission; rw [if_pos h]⟩

namespace Quiet

variable {limits : TransferResourceLimits} {m : Machine} {c : Nat}

/-- A round of `acquire` in a closed cache only leaves the queue. -/
theorem acquireRound {r : CacheRequest} {ticket : Nat} {waited late : Bool}
    (hclosed : m.cache.shut = true → m.cache.closed = true)
    (hwaiters : m.cache.shut = true → m.cache.waiters = [] ∨ m.cache.waiters = [ticket]) :
    Quiet (m.acquireRound limits c r ticket waited late).cache := by
  cases hc : m.cache.closed with
  | true =>
    obtain ⟨reason, hrefused⟩ := refused_of_closed limits hc ticket r waited late
    unfold Machine.acquireRound
    rw [hrefused]
    intro hshut
    refine ⟨hc, ?_⟩
    rcases hwaiters hshut with hnone | hone
    · show m.cache.waiters.filter _ = []
      simp [hnone]
    · show m.cache.waiters.filter _ = []
      simp [hone]
  | false =>
    have hopen : m.cache.shut = false := by
      cases hshut : m.cache.shut with
      | false => rfl
      | true => simp [hclosed hshut] at hc
    intro hshut
    unfold Machine.acquireRound at hshut
    cases hverdict : m.cache.admission limits ticket r waited late <;> rw [hverdict] at hshut <;>
      exact absurd (hopen.symm.trans hshut) (by decide)

theorem clearRound (h : Quiet m.cache) {closing : Bool} {cutoff : Nat}
    (hclosing : closing = true → m.cache.closed = true) :
    Quiet (m.clearRound c closing cutoff).cache := by
  unfold Machine.clearRound
  cases hstale : m.cache.stale cutoff with
  | some e => exact h
  | none =>
    dsimp only
    split
    · exact h
    · rename_i hclose
      split
      · exact h
      · rename_i hbusy
        simp only [not_or, Decidable.not_not] at hbusy
        split
        · exact h
        · exact fun _ => ⟨hclosing (by simpa using hclose), hbusy.2.2.2⟩

theorem clearStart (h : Quiet m.cache) {closing : Bool} :
    Quiet (m.clearStart c closing).cache := by
  unfold Machine.clearStart
  split
  · exact h
  · split
    · exact h
    · have hcut : Quiet (m.cache.cutOff closing) := fun hshut => by
        obtain ⟨hclosed, hwaiters⟩ := h hshut
        exact ⟨by simp [CacheState.cutOff, hclosed], hwaiters⟩
      refine clearRound (m := { m with cache := m.cache.cutOff closing }) hcut fun hc => ?_
      simp [CacheState.cutOff, hc]

theorem finish (h : Quiet m.cache) (e : Entry) (healthy : Bool) :
    Quiet (m.finish c e healthy).cache := by
  unfold Machine.finish
  split
  · exact h
  · exact h

theorem retired (h : Quiet m.cache) {e : Entry} {resume : Resume} {m' : Machine}
    (hstep : m.retired c e resume = some m') : Quiet m'.cache := by
  unfold Machine.retired at hstep
  split at hstep
  · cases hstep
    exact h
  · split at hstep
    · cases hstep
      exact h
    · cases hstep

theorem step (h : Quiet m.cache) {current : Prop} (haged : Aged current m) {a : Action}
    {m' : Machine}
    (hstep : Cache.step limits m a = some m') : Quiet m'.cache := by
  cases a with
  | arrive c r =>
    simp only [Cache.step] at hstep
    split at hstep <;> cases hstep
    refine acquireRound (m := { m with cache := m.cache.enqueue }) (fun hshut => (h hshut).1)
      fun hshut => .inr ?_
    show m.cache.waiters ++ [m.cache.nextTicket] = _
    rw [(h hshut).2, List.nil_append]
  | wake c late =>
    simp only [Cache.step] at hstep
    split at hstep <;> cases hstep
    exact acquireRound (fun hshut => (h hshut).1) fun hshut => .inl (h hshut).2
  | lease c a =>
    simp only [Cache.step] at hstep
    split at hstep
    · simp only [Option.bind_eq_bind, Option.bind_eq_some_iff, Option.some.injEq,
        Prod.exists] at hstep
      obtain ⟨e, -, phase', e', -, rfl⟩ := hstep
      exact h
    · cases hstep
  | teardown c destroy =>
    simp only [Cache.step] at hstep
    split at hstep
    · simp only [Option.bind_eq_bind, Option.bind_eq_some_iff, Option.some.injEq] at hstep
      obtain ⟨e, -, e', -, rfl⟩ := hstep
      exact h
    · simp only [Option.bind_eq_bind, Option.bind_eq_some_iff, Option.some.injEq] at hstep
      obtain ⟨e, -, e', -, rfl⟩ := hstep
      exact h
    · cases hstep
  | finish c =>
    simp only [Cache.step] at hstep
    split at hstep
    · simp only [Option.bind_eq_bind, Option.bind_eq_some_iff, Option.some.injEq] at hstep
      obtain ⟨e, -, rfl⟩ := hstep
      exact h.finish e _
    · cases hstep
  | retired c =>
    simp only [Cache.step] at hstep
    split at hstep
    · simp only [Option.bind_eq_bind, Option.bind_eq_some_iff] at hstep
      obtain ⟨e, -, hretired⟩ := hstep
      exact h.retired hretired
    · cases hstep
  | clear c closing =>
    simp only [Cache.step] at hstep
    split at hstep <;> cases hstep
    exact h.clearStart
  | resume c =>
    simp only [Cache.step] at hstep
    split at hstep <;> cases hstep
    rename_i closing cutoff hc
    exact h.clearRound fun hclosing =>
      (((haged.calls c).cutoff_le closing cutoff (by rw [hc]; rfl)).2 hclosing).1

end Quiet

/-! ### Clear and close -/

/-- A call executes on a context built before a clear that had returned when the call was
    admitted. -/
def Machine.executesStale (m : Machine) (c : Nat) : Bool :=
  match m.calls c with
  | .leased _ id floor .executing =>
      match m.cache.entryOf id with
      | none => false
      | some e =>
          match e.context with
          | none => false
          | some k => k.born < floor
  | _ => false

/-- Once a close has succeeded nothing is left of the cache, nobody has or waits for a
    lease, and every acquisition is refused. -/
structure Machine.ShutDown (limits : TransferResourceLimits) (m : Machine) : Prop where
  entries : m.cache.entries = []
  waiters : m.cache.waiters = []
  holds : ∀ c, (m.calls c).holds = none
  queued : ∀ c, (m.calls c).ticket = none
  refused : ∀ ticket r waited late, ∃ reason,
    m.cache.admission limits ticket r waited late = .refused reason

theorem Aged.not_executesStale {m : Machine} (h : Aged True m) (c : Nat) :
    m.executesStale c = false := by
  unfold Machine.executesStale
  split
  · rename_i r id floor hc
    cases he : m.cache.entryOf id with
    | none => rfl
    | some e =>
      obtain ⟨hmem, hid⟩ := Owned.mem_of_entryOf he
      cases hk : e.context with
      | none => simp [hk]
      | some k =>
        have hfloor := (h.calls c).floor_le r id floor .executing hc e hmem hid
        have hborn := (h.entries e hmem).born_ge trivial k hk
        simp only [hk, decide_eq_false_iff_not, Nat.not_lt]
        exact Nat.le_trans hfloor hborn
  · rfl

/-- The generations are in order in every run, the contexts too where no older entry is
    grown. -/
theorem aged_of_run (current : Prop) {limits : TransferResourceLimits} {m : Machine}
    {ok : Machine → Action → Prop} (hok : ∀ m a, ok m a → current → GrowsCurrent limits m a)
    (h : (system limits).Run ok m) : Aged current m ∧ Quiet m.cache := by
  refine System.Run.invariant_with (J := Invariant limits)
    (I := fun m => Aged current m ∧ Quiet m.cache) (fun s hs => Invariant.of_reachable hs)
    (fun s hs => ?_) (fun s a t hs _ hold hmeets hstep => ?_) h
  · rw [show s = .start from hs]
    exact ⟨Aged.start, fun hshut => by cases hshut⟩
  · exact ⟨hold.1.step hs (hok s a hmeets) hstep, hold.2.step hold.1 hstep⟩

/-- In a run in which no entry of an older generation is grown, no call executes on a
    context from before a clear that had returned when it was admitted.  In every run a
    successful close leaves nothing behind. -/
theorem transferCache_clear (limits : TransferResourceLimits) {m : Machine}
    (h : (system limits).Reachable m) :
    ((system limits).Run (GrowsCurrent limits) m → ∀ c, m.executesStale c = false) ∧
      (m.cache.shut = true → m.ShutDown limits) := by
  refine ⟨fun hrun c => ?_, fun hshut => ?_⟩
  · exact (aged_of_run True (fun _ _ hmeets _ => hmeets) hrun).1.not_executesStale c
  · have hinv := Invariant.of_reachable h
    obtain ⟨haged, hquiet⟩ := aged_of_run False (fun _ _ _ hfalse => hfalse.elim) h
    obtain ⟨hclosed, hentries⟩ := haged.shut hshut
    refine ⟨hentries, (hquiet hshut).2, fun c => ?_, fun c => ?_, refused_of_closed limits hclosed⟩
    · cases hholds : (m.calls c).holds with
      | none => rfl
      | some id =>
        obtain ⟨e, he, -⟩ := hinv.owned.holds_entry hholds
        simp [hentries] at he
    · cases hticket : (m.calls c).ticket with
      | none => rfl
      | some t =>
        have hmem := hinv.queued.queued c t hticket
        simp [(hquiet hshut).2] at hmem

/-! ### Growth in the middle of a clear -/

/-- Two distant cells: three blocks of staging under the key of the nearby ones. -/
def distant : CacheRequest := download (2 ^ 19 + 2) (3 * 2 ^ 18) 0 (by decide)

/-- A lease that gives its entry a larger ring in the context it has. -/
def regrowing (c : Nat) : List Action :=
  [.lease c (.construct true), .lease c (.restage true), .lease c .release, .lease c .release,
    .lease c (.allocate true), .lease c (.staged true), .lease c (.equip true), .lease c .publish]

/-- A clear retires one of two idle entries while a call grows the other. -/
def growthDuringClear : List Action :=
  [.arrive 0 (nearby 1)] ++ building 0 ++ succeeding 0 ++
    [.arrive 0 (nearby 0)] ++ building 0 ++ succeeding 0 ++
    [.clear 1 false, .arrive 2 distant, .teardown 1 true, .retired 1, .resume 1] ++
    regrowing 2 ++ succeeding 2 ++ [.arrive 3 distant]

example : describeCachedTransfer 1 [] (pairDownload (2 ^ 18)) 4 (hostOptions 0) smallCache =
    .ok distant := by decide +kernel

/-- The clear has returned, and the next call executes on the old context of the entry
    that was grown. -/
theorem transferCache_clear_growth :
    ∃ m, (system smallCache).Reachable m ∧ m.executesStale 3 = true := by
  have hstale : (((system smallCache).perform growthDuringClear .start).map
      fun m => m.executesStale 3) = some true := by decide +kernel
  obtain ⟨m, hm, hstale⟩ := Option.map_eq_some_iff.mp hstale
  exact ⟨m, System.reachable_of_perform rfl hm, hstale⟩

/-- A test for `GrowsCurrent`: the entry that a call would grow is of this generation, and no
    call has to be woken. -/
def growsCurrent (m : Machine) : Action → Bool
  | .arrive _ r => (m.cache.enqueue.growable r).all fun e =>
      m.cache.enqueue.generation ≤ e.generation
  | .wake _ _ => false
  | _ => true

theorem growsCurrent_spec {limits : TransferResourceLimits} (m : Machine) (a : Action)
    (h : growsCurrent m a = true) : GrowsCurrent limits m a := by
  cases a with
  | arrive c r =>
    rintro ⟨-, -, -, -, -, -, -, e, hgrow, holder⟩
    rw [growsCurrent, hgrow, Option.all_some, decide_eq_true_eq] at h
    omega
  | wake => cases h
  | lease => trivial
  | teardown => trivial
  | finish => trivial
  | retired => trivial
  | clear => trivial
  | resume => trivial

/-- A call, a clear, the same call again, and one that grows its entry. -/
def growthAfterClear : List Action :=
  [.arrive 0 (nearby 0)] ++ building 0 ++ succeeding 0 ++
    [.clear 1 false, .teardown 1 true, .retired 1, .resume 1, .arrive 0 (nearby 0)] ++
    building 0 ++ succeeding 0 ++ [.arrive 2 distant] ++ regrowing 2

/-- The call executes on nothing from before the clear; the close that follows leaves nothing. -/
theorem transferCache_clear_close : ∃ m m', (system smallCache).Reachable m ∧
    (m.calls 2).holds = some 1 ∧ m.cache.generation = 1 ∧
    (∀ c, m.executesStale c = false) ∧ (system smallCache).Leads m m' ∧
    m'.cache.shut = true ∧ m'.ShutDown smallCache := by
  have hsome : (((system smallCache).guarded growsCurrent).perform growthAfterClear .start).bind
      (fun m => ((system smallCache).perform
        (succeeding 2 ++ [.clear 1 true, .teardown 1 true, .retired 1, .resume 1]) m).map
          fun m' => ((m.calls 2).holds, m.cache.generation, m'.cache.shut)) =
      some (some 1, 1, true) := by decide +kernel
  obtain ⟨m, hm, hsome⟩ := Option.bind_eq_some_iff.mp hsome
  obtain ⟨m', hm', hfacts⟩ := Option.map_eq_some_iff.mp hsome
  simp only [Prod.mk.injEq] at hfacts
  obtain ⟨hholds, hgeneration, hshut⟩ := hfacts
  have hrun : (system smallCache).Run (GrowsCurrent smallCache) m :=
    System.run_of_guarded growsCurrent_spec (.start rfl) hm
  have hleads : (system smallCache).Leads m m' := .perform .here hm'
  exact ⟨m, m', hrun.reachable, hholds, hgeneration,
    (transferCache_clear smallCache hrun.reachable).1 hrun, hleads, hshut,
    (transferCache_clear smallCache (hrun.reachable.leads hleads)).2 hshut⟩

end SymReloc.Cache
