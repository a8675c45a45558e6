import Mathlib.Data.List.Nodup
import Mathlib.Algebra.BigOperators.Group.List.Basic
import Mathlib.Algebra.Order.Ring.Int
import Mathlib.Data.Nat.Basic
import SymReloc.Dispatch.ResourcePool

/-!
# What the pool keeps

The counters, keys and quotas of the slots and the order of the queue, over every
interleaving of the calls.  Each is an invariant of the lists it is about, so that a step
that leaves these alone keeps it.
-/

namespace SymReloc.Dispatch.Pool

variable {slots : List Slot} {leases : List Nat} {active i : Nat} {s s' : Slot}

/-! ### Leases -/

/-- The leased slots are the active ones, each once, and the count is theirs. -/
structure Leased (slots : List Slot) (leases : List Nat) (active : Nat) : Prop where
  counted : active = leases.length
  once : leases.Nodup
  iff : ∀ i, i ∈ leases ↔ ∃ s, slots[i]? = some s ∧ s.active = true

theorem active_set {j : Nat} (hslot : slots[i]? = some s) :
    (∃ t, (slots.set i s')[j]? = some t ∧ t.active = true) ↔
      if i = j then s'.active = true else ∃ t, slots[j]? = some t ∧ t.active = true := by
  have hlt : i < slots.length := (List.getElem?_eq_some_iff.mp hslot).1
  by_cases hij : i = j
  · subst hij
    rw [if_pos rfl, List.getElem?_set_self hlt]
    simp
  · rw [if_neg hij, List.getElem?_set_ne hij]

theorem Leased.set (h : Leased slots leases active) (hslot : slots[i]? = some s)
    (hsame : s'.active = s.active) : Leased (slots.set i s') leases active where
  counted := h.counted
  once := h.once
  iff := by
    intro j
    rw [active_set hslot, h.iff]
    split
    · rename_i hij
      rw [← hij, hslot, hsame]
      simp
    · exact Iff.rfl

theorem Leased.take (h : Leased slots leases active) (hslot : slots[i]? = some s)
    (hidle : s.active = false) (hactive : s'.active = true) :
    Leased (slots.set i s') (i :: leases) (active + 1) where
  counted := congrArg (· + 1) h.counted
  once := by
    refine List.nodup_cons.mpr ⟨?_, h.once⟩
    rw [h.iff, hslot]
    simp [hidle]
  iff := by
    intro j
    rw [active_set hslot, List.mem_cons, h.iff]
    by_cases hij : i = j
    · rw [if_pos hij]
      simp [hij, hactive]
    · rw [if_neg hij]
      constructor
      · intro hor
        exact hor.resolve_left (Ne.symm hij)
      · intro hother
        exact .inr hother

theorem Leased.giveBack (h : Leased slots leases active) (hslot : slots[i]? = some s)
    (hmem : i ∈ leases) (hidle : s'.active = false) :
    Leased (slots.set i s') (leases.erase i) (active - 1) where
  counted := by
    rw [List.length_erase_of_mem hmem, h.counted]
  once := h.once.erase i
  iff := by
    intro j
    rw [active_set hslot, h.once.mem_erase_iff, h.iff]
    by_cases hij : i = j
    · rw [if_pos hij]
      simp [hij, hidle]
    · rw [if_neg hij]
      constructor
      · intro hand
        exact hand.2
      · intro hother
        exact ⟨Ne.symm hij, hother⟩

theorem Leased.congr {slots' : List Slot} (h : Leased slots leases active)
    (hsame : slots'.map Slot.active = slots.map Slot.active) : Leased slots' leases active where
  counted := h.counted
  once := h.once
  iff := by
    intro j
    have hmap : ∀ list : List Slot, (∃ t, list[j]? = some t ∧ t.active = true) ↔
        (list.map Slot.active)[j]? = some true := by
      intro list
      rw [List.getElem?_map, Option.map_eq_some_iff]
    rw [h.iff, hmap, hmap, hsame]

/-! ### Keys -/

/-- No device has more slots than the limit. -/
def Keyed (slots : List Slot) (perDevice : Nat) : Prop :=
  ∀ device, (slots.countP fun s => s.onDevice device) ≤ perDevice

variable {perDevice : Nat}

/-- A slot that stays on its device, or leaves it, or comes to one that has room. -/
theorem Keyed.set (h : Keyed slots perDevice) (hslot : slots[i]? = some s)
    (hmove : ∀ device, s'.onDevice device = true → s.onDevice device = true ∨
      (slots.countP fun s => s.onDevice device) < perDevice) :
    Keyed (slots.set i s') perDevice := by
  intro device
  obtain ⟨hlt, hget⟩ := List.getElem?_eq_some_iff.mp hslot
  have hold := h device
  have hmoved := hmove device
  have hcount : (if slots[i].onDevice device then 1 else 0) ≤
      slots.countP fun s => s.onDevice device :=
    List.boole_getElem_le_countP (p := fun s => s.onDevice device) hlt
  rw [List.countP_set hlt]
  rw [hget] at hcount ⊢
  cases hbefore : s.onDevice device with
  | true =>
      rw [hbefore, if_pos rfl] at hcount
      rw [if_pos rfl]
      split <;> omega
  | false =>
      rw [if_neg (by simp)]
      cases hafter : s'.onDevice device with
      | true =>
          rcases hmoved hafter with hsame | hroom
          · rw [hbefore] at hsame
            cases hsame
          · rw [if_pos rfl]
            omega
      | false =>
          rw [if_neg (by simp)]
          omega

/-- Slots lose their keys. -/
theorem Keyed.mono {slots' : List Slot} (h : Keyed slots perDevice)
    (hless : ∀ device, (slots'.countP fun s => s.onDevice device) ≤
      slots.countP fun s => s.onDevice device) : Keyed slots' perDevice :=
  fun device => (hless device).trans (h device)

/-! ### Quarantine -/

/-- Whether the engine of a slot is quarantined. -/
def Slot.lost (s : Slot) : Bool := s.resources.any Engine.quarantined

/-- The pool knows of the quarantined engines, but for those still leased. -/
def Told (slots : List Slot) (quarantined : Bool) : Prop :=
  ∀ s ∈ slots, s.active = false → s.lost = true → quarantined = true

theorem Told.set {quarantined quarantined' : Bool} (h : Told slots quarantined)
    (hmono : quarantined = true → quarantined' = true)
    (hnew : s'.active = false → s'.lost = true → quarantined' = true) :
    Told (slots.set i s') quarantined' := by
  intro t ht hidle hlost
  rcases List.mem_or_eq_of_mem_set ht with hmem | heq
  · exact hmono (h t hmem hidle hlost)
  · rw [heq] at hidle hlost
    exact hnew hidle hlost

/-! ### Quotas -/

/-- The budgets that a slot was given. -/
def Slot.quota (s : Slot) : Nat × Nat × Nat × Nat := (s.retained, s.live, s.workers, s.streams)

theorem quota_set (s' : Slot) (hslot : slots[i]? = some s) (hsame : s'.quota = s.quota) :
    (slots.set i s').map Slot.quota = slots.map Slot.quota := by
  rw [List.map_set, hsame]
  obtain ⟨hlt, hget⟩ := List.getElem?_eq_some_iff.mp hslot
  have hlength : i < (slots.map Slot.quota).length := by
    rw [List.length_map]
    exact hlt
  have hquota : (slots.map Slot.quota)[i] = s.quota := by
    rw [List.getElem_map, hget]
  rw [← hquota]
  exact List.set_getElem_self hlength

/-- The shares of a total, up to a count. -/
theorem sum_share (total count n : Nat) :
    ((List.range n).map (share total count)).sum = n * (total / count) + min n (total % count) := by
  induction n with
  | zero => simp
  | succ n ih =>
      rw [List.range_succ, List.map_append, List.sum_append, ih, List.map_singleton,
        List.sum_singleton, share, Nat.add_mul]
      split <;> omega

/-- Together the shares are the total. -/
theorem sum_shares (total : Nat) {count : Nat} (h : count ≠ 0) :
    ((List.range count).map (share total count)).sum = total := by
  rw [sum_share, Nat.min_eq_right (Nat.mod_lt total (Nat.pos_of_ne_zero h)).le]
  exact Nat.div_add_mod total count

/-! ### The queue -/

/-- Tickets stand in the queue as they were issued, and were granted in that order. -/
structure Queued (waiters : List Waiter) (granted : List Grant) (clock : Nat) : Prop where
  sorted : (waiters.map Waiter.ticket).Pairwise (· < ·)
  issued : ∀ w ∈ waiters, w.ticket ≤ clock
  served : (granted.map Grant.ticket).Pairwise (· < ·)
  known : ∀ g ∈ granted, g.ticket ≤ clock
  before : ∀ g ∈ granted, ∀ w ∈ waiters, g.ticket < w.ticket

variable {waiters waiters' : List Waiter} {granted : List Grant} {clock : Nat}

/-- Some leave, the others stay where they are. -/
theorem Queued.sublist (h : Queued waiters granted clock)
    (hsub : (waiters'.map Waiter.ticket).Sublist (waiters.map Waiter.ticket)) {clock' : Nat}
    (hclock : clock ≤ clock') : Queued waiters' granted clock' := by
  have hmem : ∀ w ∈ waiters', ∃ v ∈ waiters, v.ticket = w.ticket := by
    intro w hw
    exact List.mem_map.mp (hsub.subset (List.mem_map_of_mem hw))
  refine ⟨h.sorted.sublist hsub, ?_, h.served, fun g hg => (h.known g hg).trans hclock, ?_⟩
  · intro w hw
    obtain ⟨v, hv, heq⟩ := hmem w hw
    exact heq ▸ (h.issued v hv).trans hclock
  · intro g hg w hw
    obtain ⟨v, hv, heq⟩ := hmem w hw
    exact heq ▸ h.before g hg v hv

theorem Queued.arrive (h : Queued waiters granted clock) (w : Waiter)
    (hticket : w.ticket = clock + 1) : Queued (waiters ++ [w]) granted (clock + 1) := by
  refine ⟨?_, ?_, h.served, fun g hg => (h.known g hg).trans (Nat.le_succ clock), ?_⟩
  · rw [List.map_append, List.pairwise_append]
    refine ⟨h.sorted, List.pairwise_singleton _ _, ?_⟩
    intro t ht u hu
    obtain ⟨v, hv, rfl⟩ := List.mem_map.mp ht
    rw [List.map_singleton, List.mem_singleton] at hu
    rw [hu, hticket]
    exact Nat.lt_succ_of_le (h.issued v hv)
  · intro v hv
    rcases List.mem_append.mp hv with hold | hnew
    · exact (h.issued v hold).trans (Nat.le_succ clock)
    · rw [List.mem_singleton.mp hnew, hticket]
  · intro g hg v hv
    rcases List.mem_append.mp hv with hold | hnew
    · exact h.before g hg v hold
    · rw [List.mem_singleton.mp hnew, hticket]
      exact Nat.lt_succ_of_le (h.known g hg)

/-- The first of the queue is served. -/
theorem Queued.serve (h : Queued waiters granted clock) {w : Waiter} {g : Grant}
    (hhead : waiters.head?.map Waiter.ticket = some w.ticket) (hgrant : g.ticket = w.ticket)
    {clock' : Nat} (hclock : clock ≤ clock') :
    Queued (waiters.filter fun v => v.ticket ≠ w.ticket) (granted ++ [g]) clock' := by
  cases waiters with
  | nil => simp at hhead
  | cons v rest =>
      have hv : v.ticket = w.ticket := by simpa using hhead
      have hsorted := List.pairwise_cons.mp h.sorted
      have hfilter : ((v :: rest).filter fun v => v.ticket ≠ w.ticket) = rest := by
        rw [List.filter_cons_of_neg (by simpa using hv)]
        refine List.filter_eq_self.mpr fun u hu => ?_
        have hless := hsorted.1 u.ticket (List.mem_map_of_mem hu)
        exact decide_eq_true (by omega)
      have hfirst : g.ticket = v.ticket := hgrant.trans hv.symm
      rw [hfilter]
      refine ⟨hsorted.2, ?_, ?_, ?_, ?_⟩
      · intro u hu
        exact (h.issued u (List.mem_cons_of_mem v hu)).trans hclock
      · rw [List.map_append, List.pairwise_append]
        refine ⟨h.served, List.pairwise_singleton _ _, ?_⟩
        intro t ht u hu
        obtain ⟨d, hd, rfl⟩ := List.mem_map.mp ht
        rw [List.map_singleton, List.mem_singleton] at hu
        rw [hu, hfirst]
        exact h.before d hd v List.mem_cons_self
      · intro d hd
        rcases List.mem_append.mp hd with hold | hnew
        · exact (h.known d hold).trans hclock
        · rw [List.mem_singleton.mp hnew, hfirst]
          exact (h.issued v List.mem_cons_self).trans hclock
      · intro d hd u hu
        rcases List.mem_append.mp hd with hold | hnew
        · exact h.before d hold u (List.mem_cons_of_mem v hu)
        · rw [List.mem_singleton.mp hnew, hfirst]
          exact hsorted.1 u.ticket (List.mem_map_of_mem hu)

/-! ### Choosing a slot -/

/-- The slot is idle, and it is on the device or the device has room for one more. -/
structure Suits (slots : List Slot) (key : Key) (full : Bool) (i : Nat) (s : Slot) : Prop where
  slot : slots[i]? = some s
  idle : s.active = false
  fits : s.fits key = true
  device : s.onDevice key.device = true ∨ full = false

theorem choose_spec {key : Key} {full : Bool} {rest : List Slot} {n : Nat}
    {found : Option (Nat × Slot)} (hrest : ∀ j : Nat, rest[j]? = slots[n + j]?)
    (hfound : ∀ c, found = some c → Suits slots key full c.1 c.2)
    (h : State.choose key full n rest found = some (i, s)) : Suits slots key full i s := by
  induction rest generalizing n found with
  | nil => exact hfound (i, s) h
  | cons d rest ih =>
      have hd : slots[n]? = some d := (hrest 0).symm
      have htail : ∀ j : Nat, rest[j]? = slots[n + 1 + j]? := by
        intro j
        rw [Nat.add_assoc, Nat.add_comm 1 j]
        exact hrest (j + 1)
      unfold State.choose at h
      split at h
      · exact ih htail hfound h
      · rename_i hserves
        have hidle : d.active = false ∧ d.fits key = true := by simpa using hserves
        split at h
        · rename_i hkey
          cases h
          exact ⟨hd, hidle.1, hidle.2, .inl (by simp [Slot.onDevice, hkey])⟩
        · split at h
          · exact ih htail hfound h
          · rename_i hroom
            have hdevice : d.onDevice key.device = true ∨ full = false := by
              cases full <;> simp_all
            split at h
            · refine ih htail ?_ h
              intro c hc
              cases hc
              exact ⟨hd, hidle.1, hidle.2, hdevice⟩
            · exact ih htail hfound h

theorem choice_spec {p : State} {key : Key} (h : p.choice key = some (i, s)) :
    Suits p.slots key (p.perDevice ≤ p.deviceCount key.device) i s :=
  choose_spec (fun j => by rw [Nat.zero_add]) (fun _ hc => by cases hc) h

/-! ### What a step does -/

theorem step_cases {P : State → Prop} {p t : State} {a : Action} (hstep : step p a = some t)
    (harrive : ∀ key, P (p.arrive key))
    (hround : ∀ w late trouble, P (p.round w late trouble))
    (hremove : ∀ ticket, P (p.remove ticket)) (hwaiter : ∀ w, P (p.setWaiter w))
    (hpending : ∀ i s pending, p.slots[i]? = some s → P (p.setSlot i { s with pending }))
    (hquarantine : ∀ i s, p.slots[i]? = some s → i ∈ p.leases →
      P (p.setSlot i { s with resources := some { quarantined := true } }))
    (hrelease : ∀ i s, p.slots[i]? = some s → i ∈ p.leases → P (p.release i s))
    (hdrain : ∀ d : Drain, P { p with closed := p.closed || d.close, drains := p.drains ++ [d] })
    (henter : ∀ d, P (p.enter d)) (hsettle : ∀ upto, P (p.settle upto))
    (habandon : P { p with clearing := false, draining := none }) : P t := by
  cases a with
  | arrive key =>
      cases hstep
      exact harrive key
  | round ticket late trouble =>
      rw [step] at hstep
      split at hstep
      · split at hstep
        · cases hstep
          exact hround _ late trouble
        · cases hstep
      · cases hstep
  | progressed ticket result =>
      rw [step] at hstep
      split at hstep
      · split at hstep
        · cases hstep
        · cases result with
          | done =>
              cases hstep
              exact hwaiter _
          | notYet =>
              rw [State.progressed] at hstep
              split at hstep
              · cases hstep
              · cases hstep
                exact hwaiter _
          | failed =>
              cases hstep
              exact hremove _
      · cases hstep
  | submitted i =>
      rw [step] at hstep
      split at hstep
      · rename_i s hslot
        split at hstep
        · cases hstep
          exact hpending i s true hslot
        · cases hstep
      · cases hstep
  | expire i =>
      rw [step] at hstep
      split at hstep
      · rename_i s hslot
        cases hstep
        exact hpending i s false hslot
      · cases hstep
  | quarantine i =>
      rw [step] at hstep
      split at hstep
      · rename_i s hslot
        split at hstep
        · rename_i hmem
          cases hstep
          exact hquarantine i s hslot hmem
        · cases hstep
      · cases hstep
  | release i =>
      rw [step] at hstep
      split at hstep
      · rename_i s hslot
        split at hstep
        · rename_i hmem
          cases hstep
          exact hrelease i s hslot hmem
        · cases hstep
      · cases hstep
  | drain d =>
      cases hstep
      exact hdrain d
  | enter d =>
      rw [step] at hstep
      split at hstep
      · cases hstep
        exact henter d
      · cases hstep
  | settle upto =>
      rw [step] at hstep
      split at hstep
      · cases hstep
        exact hsettle upto
      · cases hstep
  | abandon =>
      rw [step] at hstep
      split at hstep
      · cases hstep
        exact habandon
      · cases hstep

/-! ### The invariant of the pool -/

structure Sound (l : Limits) (p : State) : Prop where
  leased : Leased p.slots p.leases p.active
  keyed : Keyed p.slots p.perDevice
  told : Told p.slots p.quarantined
  quotas : p.slots.map Slot.quota = (start l).slots.map Slot.quota
  queued : Queued p.waiters p.granted p.clock
  limit : p.perDevice = l.perDevice

namespace Sound

variable {l : Limits} {p : State} {w : Waiter}

theorem start (l : Limits) : Sound l (start l) where
  leased := by
    refine ⟨rfl, List.nodup_nil, ?_⟩
    intro i
    constructor
    · intro h
      exact absurd h List.not_mem_nil
    · rintro ⟨s, hslot, hactive⟩
      obtain ⟨j, _, rfl⟩ := List.mem_map.mp (List.mem_of_getElem? hslot)
      cases hactive
  keyed := by
    intro device
    have hnone : ((Pool.start l).slots.countP fun s => s.onDevice device) = 0 := by
      refine List.countP_eq_zero.mpr ?_
      intro s hs
      obtain ⟨j, _, rfl⟩ := List.mem_map.mp hs
      simp [Limits.slot, Slot.onDevice]
    rw [hnone]
    exact Nat.zero_le _
  told := by
    intro s hs _ hlost
    obtain ⟨j, _, rfl⟩ := List.mem_map.mp hs
    cases hlost
  quotas := rfl
  queued := by
    refine ⟨List.Pairwise.nil, ?_, List.Pairwise.nil, ?_, ?_⟩
    · intro w hw
      exact absurd hw List.not_mem_nil
    · intro g hg
      exact absurd hg List.not_mem_nil
    · intro g hg
      exact absurd hg List.not_mem_nil
  limit := rfl

theorem remove (h : Sound l p) (ticket : Nat) : Sound l (p.remove ticket) :=
  { h with queued := h.queued.sublist (List.filter_sublist.map _) (Nat.le_refl _) }

theorem setWaiter (h : Sound l p) (w : Waiter) : Sound l (p.setWaiter w) := by
  have hsame : (p.setWaiter w).waiters.map Waiter.ticket = p.waiters.map Waiter.ticket := by
    rw [State.setWaiter, List.map_map]
    refine List.map_congr_left fun v _ => ?_
    rw [Function.comp_apply]
    split
    · rename_i heq
      exact heq.symm
    · rfl
  exact { h with queued := h.queued.sublist (hsame ▸ List.Sublist.refl _) (Nat.le_refl _) }

/-- A slot changes, but not its lease, its key and its quota. -/
theorem setSlot (h : Sound l p) (hslot : p.slots[i]? = some s) (hactive : s'.active = s.active)
    (hkey : s'.key = s.key) (hquota : s'.quota = s.quota)
    (htold : s'.active = false → s'.lost = true → p.quarantined = true) :
    Sound l (p.setSlot i s') where
  leased := h.leased.set hslot hactive
  keyed := h.keyed.set hslot fun device hdevice => by
    left
    rw [Slot.onDevice, ← hkey]
    exact hdevice
  told := h.told.set id htold
  quotas := (quota_set s' hslot hquota).trans h.quotas
  queued := h.queued
  limit := h.limit

theorem grant (h : Sound l p) (hhead : p.waiters.head?.map Waiter.ticket = some w.ticket)
    (hsuits : Suits p.slots w.key (p.perDevice ≤ p.deviceCount w.key.device) i s)
    (hquota : s'.quota = s.quota) : Sound l (p.grant w i s') where
  leased := h.leased.take hsuits.slot hsuits.idle rfl
  keyed := h.keyed.set hsuits.slot fun device hdevice => by
    have heq : w.key.device = device := by simpa [Slot.onDevice] using hdevice
    rcases hsuits.device with hsame | hroom
    · exact .inl (heq ▸ hsame)
    · right
      rw [← heq]
      exact Nat.lt_of_not_le (of_decide_eq_false hroom)
  told := h.told.set id fun hidle => by cases hidle
  quotas := (quota_set { s' with key := some w.key, active := true, lastUse := p.clock + 1 }
    hsuits.slot hquota).trans h.quotas
  queued := h.queued.serve hhead rfl (Nat.le_succ p.clock)
  limit := h.limit

theorem lease (h : Sound l p) (hhead : p.waiters.head?.map Waiter.ticket = some w.ticket)
    (hsuits : Suits p.slots w.key (p.perDevice ≤ p.deviceCount w.key.device) i s)
    (trouble : Trouble) : Sound l (p.lease w i s trouble) := by
  unfold State.lease
  split
  · exact h.remove w.ticket
  · dsimp only
    split
    · refine Sound.remove (h.setSlot hsuits.slot ?_ ?_ ?_ ?_) w.ticket
      · rfl
      · rfl
      · rfl
      · intro hidle hlost
        refine h.told s (List.mem_of_getElem? hsuits.slot) hidle ?_
        cases hengine : s.resources with
        | none =>
            rw [Slot.lost, hengine] at hlost
            cases hlost
        | some engine =>
            rw [Slot.lost, hengine] at hlost
            rw [Slot.lost, hengine]
            exact hlost
    · exact h.grant hhead hsuits rfl

theorem pause (h : Sound l p) (w : Waiter) (pending : Option Nat) (late : Bool) :
    Sound l (p.pause w pending late) := by
  have hcounted : Sound l (if w.counted then p else { p with waits := p.waits + 1 }) := by
    split
    · exact h
    · exact ⟨h.leased, h.keyed, h.told, h.quotas, h.queued, h.limit⟩
  unfold State.pause
  dsimp only
  generalize (if w.counted then p else { p with waits := p.waits + 1 }) = q at hcounted ⊢
  split
  · exact hcounted.remove w.ticket
  · exact hcounted.setWaiter _

theorem round (h : Sound l p) (w : Waiter) (late : Bool) (trouble : Trouble) :
    Sound l (p.round w late trouble) := by
  unfold State.round
  split
  · exact h.remove w.ticket
  · split
    · rename_i hturn
      rw [Bool.and_eq_true, decide_eq_true_iff] at hturn
      split
      · rename_i hchoice
        exact h.lease hturn.2 (choice_spec hchoice) trouble
      · exact h.pause w _ late
    · exact h.pause w none late

theorem arrive (h : Sound l p) (key : Key) : Sound l (p.arrive key) := by
  unfold State.arrive
  split
  · exact { h with queued := h.queued.arrive _ rfl }
  · exact h

theorem release (h : Sound l p) (hslot : p.slots[i]? = some s) (hmem : i ∈ p.leases) :
    Sound l (p.release i s) where
  leased := h.leased.giveBack hslot hmem rfl
  keyed := h.keyed.set hslot fun device hdevice => .inl hdevice
  told := h.told.set (fun hknown => by rw [State.release, hknown, Bool.true_or]) fun _ hlost => by
    have hengine : s.resources.any Engine.quarantined = true := hlost
    rw [State.release, hengine, Bool.or_true]
  quotas := (quota_set (State.Slot.ended s (p.clock + 1)) hslot rfl).trans h.quotas
  queued := h.queued.sublist (List.Sublist.refl _) (Nat.le_succ p.clock)
  limit := h.limit

theorem settled_active (s : Slot) : (State.settled s).active = s.active := by
  unfold State.settled
  split <;> rfl

theorem settled_quota (s : Slot) : (State.settled s).quota = s.quota := by
  unfold State.settled
  split <;> rfl

theorem settled_lost (s : Slot) : (State.settled s).lost = s.lost := by
  unfold State.settled
  split
  · rfl
  · rename_i hengine
    rw [Slot.lost, Slot.lost]

theorem settled_onDevice {device : Int} (h : (State.settled s).onDevice device = true) :
    s.onDevice device = true := by
  unfold State.settled at h
  split at h
  · exact h
  · unfold Slot.onDevice at h ⊢
    dsimp only at h
    split at h
    · exact h
    · cases h

theorem map_settle {β : Type} (value : Slot → β) (hsame : ∀ s, value (State.settled s) = value s)
    (p : State) (upto : Nat) : (p.settle upto).slots.map value = p.slots.map value := by
  have hcomp : value ∘ State.settled = value := funext hsame
  rw [State.settle, List.map_append, List.map_map, hcomp, ← List.map_append, List.take_append_drop]

theorem settle (h : Sound l p) (upto : Nat) : Sound l (p.settle upto) where
  leased := h.leased.congr (map_settle Slot.active settled_active p upto)
  keyed := h.keyed.mono fun device => by
    rw [State.settle, List.countP_append, List.countP_map]
    conv_rhs => rw [← List.take_append_drop upto p.slots, List.countP_append]
    refine Nat.add_le_add_right (List.countP_mono_left fun s _ hs => ?_) _
    exact settled_onDevice hs
  told := by
    intro s hs hidle hlost
    rcases List.mem_append.mp hs with hfirst | hlater
    · obtain ⟨d, hd, rfl⟩ := List.mem_map.mp hfirst
      rw [settled_lost] at hlost
      have hany : ((p.slots.take upto).any fun s => s.resources.any Engine.quarantined) = true :=
        List.any_eq_true.mpr ⟨d, hd, hlost⟩
      rw [State.settle, hany, Bool.or_true]
    · rw [State.settle, h.told s (List.mem_of_mem_drop hlater) hidle hlost, Bool.true_or]
  quotas := (map_settle Slot.quota settled_quota p upto).trans h.quotas
  queued := h.queued
  limit := h.limit

theorem enter (h : Sound l p) (d : Drain) : Sound l (p.enter d) := by
  unfold State.enter
  dsimp only
  split
  · exact ⟨h.leased, h.keyed, h.told, h.quotas, h.queued, h.limit⟩
  · exact ⟨h.leased, h.keyed, h.told, h.quotas, h.queued, h.limit⟩

theorem quarantine (h : Sound l p) (hslot : p.slots[i]? = some s) (hmem : i ∈ p.leases) :
    Sound l (p.setSlot i { s with resources := some { quarantined := true } }) := by
  refine h.setSlot hslot rfl rfl rfl fun hidle _ => ?_
  obtain ⟨d, hd, hactive⟩ := (h.leased.iff i).mp hmem
  rw [hslot] at hd
  cases hd
  rw [hactive] at hidle
  cases hidle

theorem step (h : Sound l p) {a : Action} {t : State} (hstep : Pool.step p a = some t) :
    Sound l t := by
  refine step_cases hstep h.arrive h.round h.remove h.setWaiter ?_ (fun i s => h.quarantine)
    (fun i s => h.release) ?_ h.enter h.settle ?_
  · intro i s pending hslot
    exact h.setSlot hslot rfl rfl rfl fun hidle hlost =>
      h.told s (List.mem_of_getElem? hslot) hidle hlost
  · intro d
    exact ⟨h.leased, h.keyed, h.told, h.quotas, h.queued, h.limit⟩
  · exact ⟨h.leased, h.keyed, h.told, h.quotas, h.queued, h.limit⟩

end Sound

theorem sound_of_reachable {l : Limits} {p : State} (h : (system l).Reachable p) : Sound l p := by
  refine System.Reachable.invariant ?_ ?_ h
  · intro p hp
    rw [hp.2]
    exact .start l
  · intro p a t hp hstep
    exact hp.step hstep

/-! ### Grants -/

/-- What says whether anything may be granted, and what was. -/
def State.shut (p : State) : (Bool × Bool × Bool × Option Drain) × List Grant :=
  ((p.closed, p.quarantined, p.clearing, p.draining), p.granted)

/-- What no step takes back, and what a step grants. -/
structure Carries (p t : State) : Prop where
  closed : p.closed = true → t.closed = true
  quarantined : p.quarantined = true → t.quarantined = true
  clearing : p.clearing = p.draining.isSome → t.clearing = t.draining.isSome
  granted : t.granted = p.granted ∨
    (p.closed = false ∧ p.quarantined = false ∧ p.clearing = false)

namespace Carries

variable {p q t : State}

theorem same_of (h : Carries p q) (hsame : t.shut = q.shut) : Carries p t := by
  simp only [State.shut, Prod.mk.injEq] at hsame
  obtain ⟨⟨hclosed, hquarantined, hclearing, hdraining⟩, hgranted⟩ := hsame
  constructor
  · rw [hclosed]
    exact h.closed
  · rw [hquarantined]
    exact h.quarantined
  · rw [hclearing, hdraining]
    exact h.clearing
  · rw [hgranted]
    exact h.granted

/-- A step that grants nothing and leaves the flags. -/
theorem same (hsame : t.shut = p.shut) : Carries p t :=
  same_of ⟨id, id, id, .inl rfl⟩ hsame

theorem pause (p : State) (w : Waiter) (pending : Option Nat) (late : Bool) :
    Carries p (p.pause w pending late) := by
  have hcounted : Carries p (if w.counted then p else { p with waits := p.waits + 1 }) := by
    split
    · exact same rfl
    · exact same rfl
  unfold State.pause
  dsimp only
  generalize (if w.counted then p else { p with waits := p.waits + 1 }) = q at hcounted ⊢
  split
  · exact hcounted.same_of rfl
  · exact hcounted.same_of rfl

theorem round (p : State) (w : Waiter) (late : Bool) (trouble : Trouble) :
    Carries p (p.round w late trouble) := by
  unfold State.round
  split
  · exact same rfl
  · rename_i hopen
    rw [Bool.or_eq_true, not_or, Bool.not_eq_true, Bool.not_eq_true] at hopen
    split
    · rename_i hturn
      rw [Bool.and_eq_true, Bool.not_eq_true'] at hturn
      split
      · unfold State.lease
        split
        · exact same rfl
        · dsimp only
          split
          · exact same rfl
          · exact ⟨id, id, id, .inr ⟨hopen.1, hopen.2, hturn.1⟩⟩
      · exact pause p w _ late
    · exact pause p w none late

theorem step {a : Action} (hstep : Pool.step p a = some t) : Carries p t := by
  refine step_cases hstep ?_ (round p) (fun _ => same rfl) (fun _ => same rfl)
    (fun _ _ _ _ => same rfl) (fun _ _ _ _ => same rfl) ?_ ?_ ?_ ?_
    ⟨id, id, fun _ => rfl, .inl rfl⟩
  · intro key
    unfold State.arrive
    split
    · exact same rfl
    · exact same rfl
  · intro i s _ _
    exact ⟨id, fun h => by rw [State.release, h, Bool.true_or], id, .inl rfl⟩
  · intro d
    exact ⟨fun h => by rw [h, Bool.true_or], id, id, .inl rfl⟩
  · intro d
    unfold State.enter
    dsimp only
    split
    · exact same rfl
    · exact ⟨id, id, fun _ => rfl, .inl rfl⟩
  · intro upto
    exact ⟨id, fun h => by rw [State.settle, h, Bool.true_or], fun _ => rfl, .inl rfl⟩

end Carries

/-- Once the pool is closed or knows of a quarantine nothing is granted any more. -/
theorem granted_of_leads {l : Limits} {p t : State} (hreach : (system l).Reachable p)
    (hshut : p.closed = true ∨ p.quarantined = true) (hleads : (system l).Leads p t) :
    t.granted = p.granted := by
  have hkept : (t.closed = true ∨ t.quarantined = true) ∧ t.granted = p.granted := by
    refine System.Leads.invariant (I := fun u =>
      (u.closed = true ∨ u.quarantined = true) ∧ u.granted = p.granted) ?_ hreach
        ⟨hshut, rfl⟩ hleads
    intro u a v _ hu hstep
    have hcarries := Carries.step hstep
    refine ⟨hu.1.imp hcarries.closed hcarries.quarantined, ?_⟩
    rcases hcarries.granted with hsame | ⟨hclosed, hquarantined, _⟩
    · exact hsame.trans hu.2
    · rcases hu.1 with h | h
      · rw [hclosed] at h
        cases h
      · rw [hquarantined] at h
        cases h
  exact hkept.2

/-- A drain is at work exactly while the pool is clearing. -/
theorem clearing_of_reachable {l : Limits} {p : State} (h : (system l).Reachable p) :
    p.clearing = p.draining.isSome := by
  refine System.Reachable.invariant (I := fun p => p.clearing = p.draining.isSome) ?_ ?_ h
  · intro p hp
    rw [hp.2]
    rfl
  · intro p a t hp hstep
    exact (Carries.step hstep).clearing hp

/-- While a drain is at work nothing is granted. -/
theorem granted_of_draining {l : Limits} {p t : State} {a : Action}
    (hreach : (system l).Reachable p) (hdraining : p.draining ≠ none)
    (hstep : step p a = some t) : t.granted = p.granted := by
  rcases (Carries.step hstep).granted with hsame | ⟨_, _, hclearing⟩
  · exact hsame
  · rw [clearing_of_reachable hreach, Option.isSome_eq_false_iff, Option.isNone_iff_eq_none]
      at hclearing
    exact absurd hclearing hdraining

/-! ### Main results -/

/-- The sums of the budgets that the slots were given. -/
theorem Sound.sums {l : Limits} {p : State} (h : Sound l p) (hcontexts : l.contexts ≠ 0) :
    (p.slots.map Slot.retained).sum = l.retained ∧ (p.slots.map Slot.live).sum = l.live ∧
      (p.slots.map Slot.workers).sum = l.workers ∧ (p.slots.map Slot.streams).sum = l.streams := by
  have hpart : ∀ (part : Nat × Nat × Nat × Nat → Nat) (value : Slot → Nat) (total : Nat),
      (∀ s, part s.quota = value s) → (∀ i, value (l.slot i) = share total l.contexts i) →
      (p.slots.map value).sum = total := by
    intro part value total hpart hslot
    have hquota : ∀ slots : List Slot, slots.map value = (slots.map Slot.quota).map part := by
      intro slots
      rw [List.map_map]
      exact List.map_congr_left fun s _ => (hpart s).symm
    rw [hquota, h.quotas, ← hquota, Pool.start, List.map_map, ← sum_shares total hcontexts]
    exact congrArg List.sum (List.map_congr_left fun i _ => hslot i)
  refine ⟨hpart (fun q => q.1) _ _ ?_ ?_, hpart (fun q => q.2.1) _ _ ?_ ?_,
    hpart (fun q => q.2.2.1) _ _ ?_ ?_, hpart (fun q => q.2.2.2) _ _ ?_ ?_⟩ <;>
  intro _ <;> rfl

theorem valid_of_reachable {l : Limits} {p : State} (h : (system l).Reachable p) : l.Valid := by
  refine System.Reachable.invariant (I := fun _ => l.Valid) ?_ ?_ h
  · intro p hp
    exact hp.1
  · intro _ _ _ hvalid _
    exact hvalid

/-- Whatever the calls do and in whatever order: the count is that of the leased slots, each
    leased once; no device has more slots than the limit; tickets are granted in the order they
    came; nothing is granted while a drain is at work, after `close`, or once a slot whose
    engine is quarantined was given back; and the quotas add up to the totals. -/
theorem admits (l : Limits) (p : State) (hreach : (system l).Reachable p) :
    (p.active = p.leases.length ∧ p.leases.Nodup ∧
      ∀ i, i ∈ p.leases ↔ ∃ s, p.slots[i]? = some s ∧ s.active = true) ∧
    (∀ device, p.deviceCount device ≤ l.perDevice) ∧
    ((p.granted.map Grant.ticket).Pairwise (· < ·) ∧
      (p.waiters.map Waiter.ticket).Pairwise (· < ·) ∧
      ∀ g ∈ p.granted, ∀ w ∈ p.waiters, g.ticket < w.ticket) ∧
    (∀ a t, p.draining ≠ none → step p a = some t → t.granted = p.granted) ∧
    (∀ t, (p.closed = true ∨ ∃ (i : Nat) (s : Slot), p.slots[i]? = some s ∧ i ∉ p.leases ∧
      s.lost = true) → (system l).Leads p t → t.granted = p.granted) ∧
    ((p.slots.map Slot.retained).sum = l.retained ∧ (p.slots.map Slot.live).sum = l.live ∧
      (p.slots.map Slot.workers).sum = l.workers ∧ (p.slots.map Slot.streams).sum = l.streams) := by
  have h := sound_of_reachable hreach
  refine ⟨⟨h.leased.counted, h.leased.once, h.leased.iff⟩, ?_,
    ⟨h.queued.served, h.queued.sorted, h.queued.before⟩, ?_, ?_,
    h.sums (valid_of_reachable hreach).1⟩
  · intro device
    rw [← h.limit]
    exact h.keyed device
  · intro a t hdraining hstep
    exact granted_of_draining hreach hdraining hstep
  · intro t hshut hleads
    refine granted_of_leads hreach (hshut.imp_right ?_) hleads
    rintro ⟨i, s, hslot, hfree, hlost⟩
    refine h.told s (List.mem_of_getElem? hslot) ?_ hlost
    refine Bool.eq_false_iff.mpr fun hactive => hfree ?_
    exact (h.leased.iff i).mpr ⟨s, hslot, hactive⟩

/-- A pool of two contexts. -/
def twoContexts : Limits where
  retained := 5
  live := 0
  workers := 2
  streams := 2
  contexts := 2
  perDevice := 2
  timeout := none

def firstDevice : Key where
  device := 0
  streams := 1
  threads := 1
  borrowedWorkers := 0
  affinity := []

/-- The work of a slot is quarantined, and the other slot is leased before it is given back. -/
theorem granted_after_quarantine : ∃ p t a, (system twoContexts).Reachable p ∧
    (∃ s ∈ p.slots, s.lost = true) ∧ step p a = some t ∧ t.granted ≠ p.granted := by
  let actions : List Action := [.arrive firstDevice, .round 1 false .none, .quarantine 1,
    .arrive firstDevice]
  have hperform : ∃ p, (system twoContexts).perform actions (start twoContexts) = some p ∧
      (∃ s ∈ p.slots, s.lost = true) ∧ ∃ t, step p (.round 3 false .none) = some t ∧
      t.granted ≠ p.granted := by
    decide
  obtain ⟨p, hp, hlost, t, hstep, hgranted⟩ := hperform
  have hstart : (system twoContexts).initial (start twoContexts) := ⟨by decide, rfl⟩
  exact ⟨p, t, _, System.reachable_of_perform hstart hp, hlost, hstep, hgranted⟩

/-- Two leases are granted and a third call waits; the work of one slot is quarantined, the slot is
    given back, and a drain begins. -/
theorem admits_released : ∃ p, (system twoContexts).Reachable p ∧
    (p.leases = [0] ∧ p.waiters.map Waiter.ticket = [5] ∧ p.granted.map Grant.ticket = [1, 3]) ∧
    p.active = p.leases.length ∧ (∀ device, p.deviceCount device ≤ 2) ∧
    (∀ g ∈ p.granted, ∀ w ∈ p.waiters, g.ticket < w.ticket) ∧
    (∀ a t, step p a = some t → t.granted = p.granted) ∧
    (∀ t, (system twoContexts).Leads p t → t.granted = p.granted) ∧
    (p.slots.map Slot.retained).sum = 5 ∧ (p.slots.map Slot.workers).sum = 2 := by
  let actions : List Action := [.arrive firstDevice, .round 1 false .none, .arrive firstDevice,
    .round 3 false .none, .arrive firstDevice, .round 5 false .none, .quarantine 1, .release 1,
    .drain ⟨0, false⟩, .enter ⟨0, false⟩]
  have hperform : ∃ p, (system twoContexts).perform actions (start twoContexts) = some p ∧
      (p.leases = [0] ∧ p.waiters.map Waiter.ticket = [5] ∧
        p.granted.map Grant.ticket = [1, 3]) ∧
      p.draining ≠ none ∧ ∃ s, p.slots[1]? = some s ∧ 1 ∉ p.leases ∧ s.lost = true := by
    decide
  obtain ⟨p, hp, hstate, hdraining, s, hslot, hfree, hlost⟩ := hperform
  have hreach := System.reachable_of_perform
    (show (system twoContexts).initial (start twoContexts) from ⟨by decide, rfl⟩) hp
  obtain ⟨⟨hactive, -⟩, hdevices, ⟨-, -, horder⟩, hdrained, hshut, hretained, -, hworkers, -⟩ :=
    admits twoContexts p hreach
  exact ⟨p, hreach, hstate, hactive, hdevices, horder, fun a t => hdrained a t hdraining,
    fun t => hshut t (.inr ⟨1, s, hslot, hfree, hlost⟩), hretained, hworkers⟩

end SymReloc.Dispatch.Pool
