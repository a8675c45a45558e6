import SymReloc.Cache.Admission

/-!
# The queue of waiting calls

Tickets are handed out in the order of arrival, and a lease is granted to the call at
the head of the queue only; so the tickets of the leases granted are in the order of
arrival as well.
-/

namespace SymReloc.Cache

/-- The ticket of a call that is in the queue. -/
def Call.ticket : Call → Option Nat
  | .outside => none
  | .waiting _ ticket _ => some ticket
  | .leased _ _ _ _ => none
  | .retiring _ (.acquire _ ticket _) => some ticket
  | .retiring _ .done => none
  | .retiring _ (.clear _ _) => none
  | .clearing _ _ => none

structure Queued (m : Machine) : Prop where
  sorted : m.cache.waiters.Pairwise (· < ·)
  below : ∀ t ∈ m.cache.waiters, t < m.cache.nextTicket
  queued : ∀ c t, (m.calls c).ticket = some t → t ∈ m.cache.waiters
  distinct : ∀ c d t, (m.calls c).ticket = some t → (m.calls d).ticket = some t → c = d
  granted : (m.cache.grants.map Grant.ticket).Pairwise (· < ·)
  past : ∀ g ∈ m.cache.grants, ∀ t ∈ m.cache.waiters, g.ticket < t
  issued : ∀ g ∈ m.cache.grants, g.ticket < m.cache.nextTicket

namespace Queued

variable {m : Machine} {c ticket : Nat}

/-- A call that keeps its ticket, or has none. -/
theorem withCall (h : Queued m) {cache : CacheState} {call : Call}
    (hwaiters : cache.waiters = m.cache.waiters) (hgrants : cache.grants = m.cache.grants)
    (hnext : cache.nextTicket = m.cache.nextTicket)
    (hcall : ∀ t, call.ticket = some t →
      t ∈ m.cache.waiters ∧ ∀ d, d ≠ c → (m.calls d).ticket ≠ some t) :
    Queued { cache, calls := Function.update m.calls c call } := by
  constructor
  · show cache.waiters.Pairwise _
    rw [hwaiters]
    exact h.sorted
  · show ∀ t ∈ cache.waiters, t < cache.nextTicket
    rw [hwaiters, hnext]
    exact h.below
  · show ∀ d t, (Function.update m.calls c call d).ticket = some t → t ∈ cache.waiters
    intro d t hd
    rw [hwaiters]
    by_cases hdc : d = c
    · subst hdc
      rw [Function.update_self] at hd
      exact (hcall t hd).1
    · rw [Function.update_of_ne hdc] at hd
      exact h.queued d t hd
  · show ∀ d d' t, (Function.update m.calls c call d).ticket = some t →
      (Function.update m.calls c call d').ticket = some t → d = d'
    intro d d' t hd hd'
    by_cases hdc : d = c
    · by_cases hdc' : d' = c
      · rw [hdc, hdc']
      · subst hdc
        rw [Function.update_self] at hd
        rw [Function.update_of_ne hdc'] at hd'
        exact absurd hd' ((hcall t hd).2 d' hdc')
    · by_cases hdc' : d' = c
      · subst hdc'
        rw [Function.update_self] at hd'
        rw [Function.update_of_ne hdc] at hd
        exact absurd hd ((hcall t hd').2 d hdc)
      · rw [Function.update_of_ne hdc] at hd
        rw [Function.update_of_ne hdc'] at hd'
        exact h.distinct d d' t hd hd'
  · show (cache.grants.map Grant.ticket).Pairwise _
    rw [hgrants]
    exact h.granted
  · show ∀ g ∈ cache.grants, ∀ t ∈ cache.waiters, g.ticket < t
    rw [hgrants, hwaiters]
    exact h.past
  · show ∀ g ∈ cache.grants, g.ticket < cache.nextTicket
    rw [hgrants, hnext]
    exact h.issued

/-- A call that leaves the queue, with a lease or without one. -/
theorem leave (h : Queued m) {cache : CacheState} {call : Call} {grants : List Grant}
    (hwaiters : cache.waiters = m.cache.waiters.filter (· ≠ ticket))
    (hgrants : cache.grants = m.cache.grants ++ grants)
    (hnext : cache.nextTicket = m.cache.nextTicket)
    (hother : ∀ d, d ≠ c → (m.calls d).ticket ≠ some ticket) (hcall : call.ticket = none)
    (hhead : grants = [] ∨ ∃ id, grants = [{ ticket, id }] ∧ m.cache.waiters.head? = some ticket) :
    Queued { cache, calls := Function.update m.calls c call } := by
  have hmem : ∀ t ∈ m.cache.waiters.filter (· ≠ ticket), t ∈ m.cache.waiters :=
    fun t ht => (List.mem_filter.mp ht).1
  constructor
  · show cache.waiters.Pairwise _
    rw [hwaiters]
    exact h.sorted.filter _
  · show ∀ t ∈ cache.waiters, t < cache.nextTicket
    rw [hwaiters, hnext]
    exact fun t ht => h.below t (hmem t ht)
  · show ∀ d t, (Function.update m.calls c call d).ticket = some t → t ∈ cache.waiters
    intro d t hd
    rw [hwaiters]
    by_cases hdc : d = c
    · subst hdc
      simp [hcall] at hd
    · rw [Function.update_of_ne hdc] at hd
      refine List.mem_filter.mpr ⟨h.queued d t hd, ?_⟩
      have hne : t ≠ ticket := fun heq => hother d hdc (heq ▸ hd)
      simpa using hne
  · show ∀ d d' t, (Function.update m.calls c call d).ticket = some t →
      (Function.update m.calls c call d').ticket = some t → d = d'
    intro d d' t hd hd'
    have hne : ∀ d, (Function.update m.calls c call d).ticket = some t → d ≠ c := by
      intro d hd heq
      subst heq
      simp [hcall] at hd
    rw [Function.update_of_ne (hne d hd)] at hd
    rw [Function.update_of_ne (hne d' hd')] at hd'
    exact h.distinct d d' t hd hd'
  · show (cache.grants.map Grant.ticket).Pairwise _
    rw [hgrants, List.map_append, List.pairwise_append]
    refine ⟨h.granted, ?_, ?_⟩
    · rcases hhead with hnone | ⟨id, hone, -⟩
      · simp [hnone]
      · simp [hone]
    · rcases hhead with hnone | ⟨id, hone, hhead⟩
      · simp [hnone]
      · intro t ht t' ht'
        obtain ⟨g, hg, rfl⟩ := List.mem_map.mp ht
        have heq : t' = ticket := by simpa [hone] using ht'
        subst heq
        exact h.past g hg _ (List.mem_of_mem_head? hhead)
  · show ∀ g ∈ cache.grants, ∀ t ∈ cache.waiters, g.ticket < t
    rw [hgrants, hwaiters]
    intro g hg t ht
    rcases List.mem_append.mp hg with hold | hnew
    · exact h.past g hold t (hmem t ht)
    · rcases hhead with hnone | ⟨id, hone, hhead⟩
      · simp [hnone] at hnew
      · have hgt : g.ticket = ticket := by
          rw [hone, List.mem_singleton] at hnew
          rw [hnew]
        rw [hgt]
        obtain ⟨hmem', hne⟩ := List.mem_filter.mp ht
        obtain ⟨rest, hrest⟩ := List.head?_eq_some_iff.mp hhead
        have hsorted := h.sorted
        rw [hrest, List.pairwise_cons] at hsorted
        rw [hrest] at hmem'
        rcases List.mem_cons.mp hmem' with heq | hlater
        · simp [heq] at hne
        · exact hsorted.1 t hlater
  · show ∀ g ∈ cache.grants, g.ticket < cache.nextTicket
    rw [hgrants, hnext]
    intro g hg
    rcases List.mem_append.mp hg with hold | hnew
    · exact h.issued g hold
    · rcases hhead with hnone | ⟨id, hone, hhead⟩
      · simp [hnone] at hnew
      · rw [hone, List.mem_singleton] at hnew
        rw [hnew]
        exact h.below _ (List.mem_of_mem_head? hhead)

/-- A new arrival comes after everybody. -/
theorem enqueue (h : Queued m) : Queued { m with cache := m.cache.enqueue } where
  sorted := by
    show (m.cache.waiters ++ [m.cache.nextTicket]).Pairwise _
    rw [List.pairwise_append]
    refine ⟨h.sorted, by simp, fun t ht t' ht' => ?_⟩
    rw [List.mem_singleton.mp ht']
    exact h.below t ht
  below := by
    intro t ht
    show t < m.cache.nextTicket + 1
    rcases List.mem_append.mp ht with hold | hnew
    · exact Nat.lt_succ_of_lt (h.below t hold)
    · rw [List.mem_singleton.mp hnew]
      exact Nat.lt_succ_self _
  queued := fun c t hc => List.mem_append_left _ (h.queued c t hc)
  distinct := h.distinct
  granted := h.granted
  past := by
    intro g hg t ht
    rcases List.mem_append.mp ht with hold | hnew
    · exact h.past g hg t hold
    · rw [List.mem_singleton.mp hnew]
      exact h.issued g hg
  issued := fun g hg => Nat.lt_succ_of_lt (h.issued g hg)

end Queued

end SymReloc.Cache
