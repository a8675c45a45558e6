import Mathlib.Algebra.BigOperators.Group.List.Basic
import Mathlib.Algebra.Order.Ring.Int
import Mathlib.Algebra.Order.BigOperators.Group.List
import Mathlib.Data.Int.Order.Basic
import Mathlib.Data.List.Nodup
import SymReloc.Frontend.TransferQueue

/-!
# What a transfer queue keeps

The reservations of a queue are those of the completions that are not closed.  For the
outputs, the invariant follows each stream on which they were handed out: as long as
`release` has not recorded the end of use it is among the consumers, and from then on an
event recorded on it later is among the retired ones.
-/

namespace SymReloc.Asynchronous

open Throwing Effect

variable {W : Type}

/-! ### Safe drops -/

/-- The host has waited for what a stream had been given: for the whole stream, or for an
    event recorded on it. -/
def Synchronized (stream : Nat) (later : List Event) : Prop :=
  .streamSynchronized stream ∈ later ∨
    ∃ newer older event, later = newer ++ .recorded event stream :: older ∧
      .eventSynchronized event ∈ newer

/-- The producer of a completion is over, or its owners are in the native quarantine. -/
def Settled (h : Nat) (past : List Event) : Prop :=
  .producerCompleted h ∈ past ∨ .producerQuarantined h ∈ past

/-- The outputs of a completion may be dropped: each stream that they were handed out on, in
    the hand-outs that count, has been synchronised since. -/
def DropSafe (counts : Nat → List Event → Prop) (h : Nat) (past : List Event) : Prop :=
  Settled h past ∧
    (.quarantined h ∈ past ∨ ∀ stream later earlier,
      past = later ++ .handedOut h stream :: earlier → counts h earlier →
        Synchronized stream later)

def DropsSafe (counts : Nat → List Event → Prop) (log : List Event) : Prop :=
  ∀ later h past, log = later ++ .dropped h :: past → DropSafe counts h past

/-- Every hand-out counts. -/
def Always (_ : Nat) (_ : List Event) : Prop := True

/-- The hand-outs before `release` count. -/
def BeforeRelease (h : Nat) (earlier : List Event) : Prop := .useEnded h ∉ earlier

/-- What is not among the new entries is among the old ones. -/
theorem split_after {α : Type} {a : α} {new old later earlier : List α}
    (heq : new ++ old = later ++ a :: earlier) (hnew : a ∉ new) :
    ∃ between, later = new ++ between ∧ old = between ++ a :: earlier := by
  rcases List.append_eq_append_iff.1 heq with ⟨between, hlater, hold⟩ | ⟨between, hnew', hold⟩
  · exact ⟨between, hlater, hold⟩
  · cases between with
    | nil => exact ⟨[], by simpa using hnew'.symm, by simpa using hold.symm⟩
    | cons x between =>
        have hx : a = x := (List.cons.inj hold).1
        simp [hnew', hx] at hnew

theorem DropsSafe.cons {counts : Nat → List Event → Prop} {log : List Event} {e : Event}
    (hlog : DropsSafe counts log) (he : ∀ h, e = .dropped h → DropSafe counts h log) :
    DropsSafe counts (e :: log) := by
  intro later h past heq
  cases later with
  | nil =>
      obtain ⟨rfl, rfl⟩ := List.cons.inj heq
      exact he h rfl
  | cons x later =>
      exact hlog later h past (List.cons.inj heq).2

/-! ### The invariant -/

/-- The events that say something about the reservation or the outputs of a completion. -/
def Event.Concerns (h : Nat) : Event → Prop
  | .handedOut k _ => k = h
  | .useEnded k => k = h
  | .dropped k => k = h
  | .returned k => k = h
  | _ => False

namespace TransferCompletion

/-- A stream with a hand-out before the events `later` is accounted for. -/
def Covers (c : TransferCompletion) (stream : Nat) (later : List Event) : Prop :=
  (c.released = false ∧ ∃ consumer ∈ c.consumers, consumer.handle = stream) ∨
    (c.released = true ∧ ∃ event ∈ c.retired, .recorded event stream ∈ later)

def Covered (c : TransferCompletion) (h : Nat) (log : List Event) : Prop :=
  ∀ stream later earlier, log = later ++ .handedOut h stream :: earlier →
    BeforeRelease h earlier → c.Covers stream later

structure Sound (c : TransferCompletion) (h : Nat) (log : List Event) : Prop where
  size_nonneg : 0 ≤ c.size
  owned : c.closed = c.owned.isNone
  returned : log.count (.returned h) = if c.closed then 1 else 0
  dropped : .dropped h ∈ log ↔ c.closed = true
  ended : c.closed = false → (.useEnded h ∈ log ↔ c.released = true)
  covered : c.closed = false → c.Covered h log

variable {c d : TransferCompletion} {h stream : Nat} {log later : List Event} {e : Event}

theorem Covers.cons (hcovers : c.Covers stream later) : c.Covers stream (e :: later) := by
  rcases hcovers with hconsumer | ⟨hreleased, event, hevent, hrecorded⟩
  · exact .inl hconsumer
  · exact .inr ⟨hreleased, event, hevent, by simp [hrecorded]⟩

theorem Covered.cons (hcovered : c.Covered h log)
    (he : ∀ stream, e = .handedOut h stream → BeforeRelease h log → c.Covers stream []) :
    c.Covered h (e :: log) := by
  intro stream later earlier heq hbefore
  cases later with
  | nil =>
      obtain ⟨rfl, rfl⟩ := List.cons.inj heq
      exact he stream rfl hbefore
  | cons x later => exact (hcovered stream later earlier (List.cons.inj heq).2 hbefore).cons

theorem Covered.mono (hcovered : c.Covered h log)
    (himp : ∀ stream later, c.Covers stream later → d.Covers stream later) :
    d.Covered h log := by
  intro stream later earlier heq hbefore
  exact himp stream later (hcovered stream later earlier heq hbefore)

/-- What happens to others leaves a completion as it is. -/
theorem Sound.cons (hsound : c.Sound h log) (he : ¬ e.Concerns h) : c.Sound h (e :: log) where
  size_nonneg := hsound.size_nonneg
  owned := hsound.owned
  returned := by
    have hne : e ≠ .returned h := fun heq => he (heq ▸ rfl)
    rw [List.count_cons_of_ne hne]
    exact hsound.returned
  dropped := by
    have hne : .dropped h ≠ e := fun heq => he (heq ▸ rfl)
    simpa [hne] using hsound.dropped
  ended := by
    intro hopen
    have hne : .useEnded h ≠ e := fun heq => he (heq ▸ rfl)
    simpa [hne] using hsound.ended hopen
  covered := by
    intro hopen
    refine (hsound.covered hopen).cons fun stream heq _ => ?_
    exact absurd rfl (heq ▸ he)

/-- The first entry of a completion in the log. -/
theorem sound_new {owned : Owned} {size : Int} (hsize : 0 ≤ size)
    (habsent : ∀ e ∈ log, ¬ e.Concerns h) :
    (⟨some owned, size, [], [], false, false⟩ : TransferCompletion).Sound h log where
  size_nonneg := hsize
  owned := rfl
  returned := by
    simp only [Bool.false_eq_true, if_false, List.count_eq_zero]
    exact fun hmem => habsent _ hmem rfl
  dropped := by
    simp only [Bool.false_eq_true, iff_false]
    exact fun hmem => habsent _ hmem rfl
  ended := by
    intro _
    simp only [Bool.false_eq_true, iff_false]
    exact fun hmem => habsent _ hmem rfl
  covered := by
    intro _ stream later earlier heq
    exact absurd rfl (habsent (.handedOut h stream) (by simp [heq]))

end TransferCompletion

def State.sizeOf (s : State W) (h : Nat) : Int :=
  ((s.completions h).map TransferCompletion.size).getD 0

structure Sound (s : State W) : Prop where
  held_nodup : s.held.Nodup
  held : ∀ h, h ∈ s.held ↔ ∃ c, s.completions h = some c ∧ c.closed = false
  fresh : ∀ h, s.submitted ≤ h → s.completions h = none
  bytes : s.bytes = (s.held.map s.sizeOf).sum
  count_le : s.held.length ≤ s.limits.maxInFlight
  bytes_le : s.bytes ≤ s.limits.maxOutputBytes
  absent : ∀ h, s.completions h = none → ∀ e ∈ s.log, ¬ e.Concerns h
  completions : ∀ h c, s.completions h = some c → c.Sound h s.log
  drops : DropsSafe BeforeRelease s.log

theorem Sound.start (limits : Limits) (device : Nat) (ownsResources : Bool) (pid : Nat)
    (world : W) : Sound (State.start limits device ownsResources pid world) where
  held_nodup := List.nodup_nil
  held := by simp [State.start]
  fresh := fun _ _ => rfl
  bytes := rfl
  count_le := Nat.zero_le _
  bytes_le := limits.outputBytes_pos.le
  absent := by simp [State.start]
  completions := by simp [State.start]
  drops := by
    intro later h past heq
    simp [State.start] at heq

/-- The fields that the invariant is about. -/
structure Frame (s t : State W) : Prop where
  limits : t.limits = s.limits
  held : t.held = s.held
  submitted : t.submitted = s.submitted
  bytes : t.bytes = s.bytes
  completions : t.completions = s.completions
  log : t.log = s.log

theorem Frame.refl (s : State W) : Frame s s := ⟨rfl, rfl, rfl, rfl, rfl, rfl⟩

theorem Sound.frame {s t : State W} (hsound : Sound s) (hframe : Frame s t) : Sound t := by
  obtain ⟨hlimits, hheld, hsubmitted, hbytes, hcompletions, hlog⟩ := hframe
  have hsizes : t.sizeOf = s.sizeOf := by
    funext h
    rw [State.sizeOf, State.sizeOf, hcompletions]
  constructor
  · rw [hheld]
    exact hsound.held_nodup
  · rw [hheld, hcompletions]
    exact hsound.held
  · rw [hsubmitted, hcompletions]
    exact hsound.fresh
  · rw [hbytes, hheld, hsizes]
    exact hsound.bytes
  · rw [hheld, hlimits]
    exact hsound.count_le
  · rw [hbytes, hlimits]
    exact hsound.bytes_le
  · rw [hcompletions, hlog]
    exact hsound.absent
  · rw [hcompletions, hlog]
    exact hsound.completions
  · rw [hlog]
    exact hsound.drops

/-! ### What changes the log and the completions -/

/-- The events that concern no completion. -/
def Event.Neutral (e : Event) : Prop := ∀ h, ¬ e.Concerns h

theorem Sound.note {s : State W} {e : Event} (hsound : Sound s) (he : e.Neutral) :
    Sound { s with log := e :: s.log } where
  held_nodup := hsound.held_nodup
  held := hsound.held
  fresh := hsound.fresh
  bytes := hsound.bytes
  count_le := hsound.count_le
  bytes_le := hsound.bytes_le
  absent := by
    intro h hnone e' hmem
    rcases List.mem_cons.1 hmem with rfl | hmem
    · exact he h
    · exact hsound.absent h hnone e' hmem
  completions := fun h c hget => (hsound.completions h c hget).cons (he h)
  drops := hsound.drops.cons fun h heq => absurd rfl (heq ▸ he h)

theorem modify_completions (s : State W) (h k : Nat)
    (f : TransferCompletion → TransferCompletion) :
    (s.modify h f).completions k =
      if k = h then (s.completions k).map f else s.completions k := rfl

/-- A change to one completion, and the log with it, that keeps it open. -/
theorem Sound.modify {s : State W} {h : Nat} {f : TransferCompletion → TransferCompletion}
    {c : TransferCompletion} {log : List Event} (hsound : Sound s)
    (hget : s.completions h = some c) (hsize : (f c).size = c.size)
    (hclosed : (f c).closed = c.closed) (hchanged : (f c).Sound h log)
    (hothers : ∀ k, k ≠ h → (∀ c : TransferCompletion, c.Sound k s.log → c.Sound k log) ∧
      ((∀ e ∈ s.log, ¬ e.Concerns k) → ∀ e ∈ log, ¬ e.Concerns k))
    (hdrops : DropsSafe BeforeRelease log) :
    Sound { s.modify h f with log := log } := by
  have heach : ∀ k d, (s.modify h f).completions k = some d →
      (k = h ∧ d = f c) ∨ (k ≠ h ∧ s.completions k = some d) := by
    intro k d hd
    rw [modify_completions] at hd
    by_cases hk : k = h
    · subst hk
      rw [if_pos rfl, hget] at hd
      exact .inl ⟨rfl, (Option.some.inj hd).symm⟩
    · rw [if_neg hk] at hd
      exact .inr ⟨hk, hd⟩
  have hsizes : (s.modify h f).sizeOf = s.sizeOf := by
    funext k
    rw [State.sizeOf, State.sizeOf, modify_completions]
    by_cases hk : k = h
    · subst hk
      simp [hget, hsize]
    · rw [if_neg hk]
  have hnone : ∀ k, (s.modify h f).completions k = none → k ≠ h ∧ s.completions k = none := by
    intro k hk
    rw [modify_completions] at hk
    by_cases heq : k = h
    · subst heq
      simp [hget] at hk
    · rw [if_neg heq] at hk
      exact ⟨heq, hk⟩
  constructor
  · exact hsound.held_nodup
  · intro k
    refine (hsound.held k).trans ?_
    by_cases hk : k = h
    · subst hk
      simp [modify_completions, hget, hclosed]
    · simp [modify_completions, hk]
  · intro k hk
    have hfresh : s.completions k = none := hsound.fresh k hk
    simp [modify_completions, hfresh]
  · exact hsound.bytes.trans (by rw [← hsizes]; rfl)
  · exact hsound.count_le
  · exact hsound.bytes_le
  · intro k hk
    obtain ⟨hne, hk⟩ := hnone k hk
    exact (hothers k hne).2 (hsound.absent k hk)
  · intro k d hd
    rcases heach k d hd with ⟨rfl, rfl⟩ | ⟨hne, hd⟩
    · exact hchanged
    · exact (hothers k hne).1 d (hsound.completions k d hd)
  · exact hdrops

/-- One more event about a completion does not touch the others. -/
theorem others_cons {h : Nat} {log : List Event} {e : Event}
    (he : ∀ k, e.Concerns k → k = h) (k : Nat) (hk : k ≠ h) :
    (∀ c : TransferCompletion, c.Sound k log → c.Sound k (e :: log)) ∧
      ((∀ e ∈ log, ¬ e.Concerns k) → ∀ e' ∈ e :: log, ¬ e'.Concerns k) := by
  refine ⟨fun c hc => hc.cons fun hconcerns => hk (he k hconcerns), fun habsent e' hmem => ?_⟩
  rcases List.mem_cons.1 hmem with rfl | hmem
  · exact fun hconcerns => hk (he k hconcerns)
  · exact habsent e' hmem

/-- The outputs go to a stream that is accounted for. -/
theorem Sound.handedOut {s : State W} {h stream : Nat} {c : TransferCompletion}
    (hsound : Sound s) (hget : s.completions h = some c) (hopen : c.closed = false)
    (hconsumer : c.released = false → ∃ consumer ∈ c.consumers, consumer.handle = stream) :
    Sound { s with log := .handedOut h stream :: s.log } := by
  have hc := hsound.completions h c hget
  have hsame : s = s.modify h id := by
    have hmap : (fun k => if k = h then (s.completions k).map id else s.completions k) =
        s.completions := by
      funext k
      simp
    unfold State.modify
    rw [hmap]
  have hkept : c.Sound h (.handedOut h stream :: s.log) := by
    constructor
    · exact hc.size_nonneg
    · exact hc.owned
    · rw [List.count_cons_of_ne (by simp)]
      exact hc.returned
    · simpa using hc.dropped
    · simpa using hc.ended
    · intro _
      refine (hc.covered hopen).cons fun stream' heq hbefore => ?_
      cases heq
      have hreleased : c.released = false := by
        by_contra hreleased
        exact hbefore ((hc.ended hopen).2 (by simpa using hreleased))
      exact .inl ⟨hreleased, hconsumer hreleased⟩
  have hmodified : Sound { s.modify h id with log := .handedOut h stream :: s.log } := by
    refine hsound.modify hget rfl rfl hkept (others_cons fun k (heq : h = k) => heq.symm) ?_
    exact hsound.drops.cons fun k heq => by cases heq
  rwa [← hsame] at hmodified

/-- `release` has recorded an event for every consumer since their hand-outs. -/
theorem Sound.useEnded {s : State W} {h : Nat} {c : TransferCompletion} {new old : List Event}
    (hsound : Sound s) (hget : s.completions h = some c) (hopen : c.closed = false)
    (hreleased : c.released = false) (hlog : s.log = new ++ old)
    (hnew : ∀ stream, .handedOut h stream ∉ new)
    (hrecorded : ∀ consumer ∈ c.consumers,
      ∃ event ∈ c.retired, .recorded event consumer.handle ∈ new) :
    Sound { s.modify h fun c => { c with released := true } with
      log := .useEnded h :: s.log } := by
  have hc := hsound.completions h c hget
  refine hsound.modify hget rfl rfl ?_ (others_cons fun k (heq : h = k) => heq.symm)
    (hsound.drops.cons fun k heq => by cases heq)
  constructor
  · exact hc.size_nonneg
  · exact hc.owned
  · rw [List.count_cons_of_ne (by simp)]
    exact hc.returned
  · simpa using hc.dropped
  · simp
  · intro _ stream later earlier heq hbefore
    cases later with
    | nil => cases (List.cons.inj heq).1
    | cons x later =>
        have hsplit := (List.cons.inj heq).2
        have hcovers := hc.covered hopen stream later earlier hsplit hbefore
        rcases hcovers with ⟨-, consumer, hconsumer, hhandle⟩ | ⟨htrue, -⟩
        · -- the hand-out is not among the new events, so all of these are later
          obtain ⟨between, rfl, -⟩ := split_after (hlog.symm.trans hsplit) (hnew stream)
          obtain ⟨event, hevent, hmem⟩ := hrecorded consumer hconsumer
          rw [hhandle] at hmem
          exact .inr ⟨rfl, event, hevent, by simp [hmem]⟩
        · simp [hreleased] at htrue

/-- A change to the streams and events of an open completion that accounts for as much. -/
theorem Sound.account {s : State W} {h : Nat} {c : TransferCompletion}
    {f : TransferCompletion → TransferCompletion} (hsound : Sound s)
    (hget : s.completions h = some c) (hopen : c.closed = false)
    (hsize : (f c).size = c.size) (hclosed : (f c).closed = c.closed)
    (howned : (f c).owned = c.owned) (hreleased : (f c).released = c.released)
    (hcovers : ∀ stream later, c.Covers stream later → (f c).Covers stream later) :
    Sound (s.modify h f) := by
  have hc := hsound.completions h c hget
  refine hsound.modify hget hsize hclosed ?_ (fun k _ => ⟨fun _ hd => hd, fun hd => hd⟩)
    hsound.drops
  constructor
  · exact hsize ▸ hc.size_nonneg
  · rw [hclosed, howned]
    exact hc.owned
  · rw [hclosed]
    exact hc.returned
  · rw [hclosed]
    exact hc.dropped
  · rw [hclosed, hreleased]
    exact hc.ended
  · intro _
    exact (hc.covered hopen).mono hcovers

theorem insertConsumer_self (stream : Stream) (consumers : List Stream) :
    ∃ consumer ∈ insertConsumer stream consumers, consumer.handle = stream.handle := by
  unfold insertConsumer
  split
  · rename_i hany
    simp only [List.any_eq_true, decide_eq_true_eq] at hany
    obtain ⟨consumer, hmem, hhandle⟩ := hany
    exact ⟨stream, List.mem_map.2 ⟨consumer, hmem, by simp [hhandle]⟩, rfl⟩
  · exact ⟨stream, by simp, rfl⟩

theorem insertConsumer_keeps {stream consumer : Stream} {consumers : List Stream}
    (hmem : consumer ∈ consumers) :
    ∃ kept ∈ insertConsumer stream consumers, kept.handle = consumer.handle := by
  unfold insertConsumer
  split
  · refine ⟨_, List.mem_map.2 ⟨consumer, hmem, rfl⟩, ?_⟩
    split
    · rename_i hhandle
      exact hhandle.symm
    · rfl
  · exact ⟨consumer, by simp [hmem], rfl⟩

/-- The state after the end of `close`. -/
def State.dropped (s : State W) (h : Nat) (c : TransferCompletion) : State W :=
  { s.modify h fun c => { c with closed := true, owned := none, consumers := [], retired := [] }
    with
    held := s.held.erase h
    bytes := s.bytes - c.size
    log := .returned h :: .dropped h :: s.log }

theorem Sound.dropped {s : State W} {h : Nat} {c : TransferCompletion} (hsound : Sound s)
    (hget : s.completions h = some c) (hopen : c.closed = false)
    (hsafe : DropSafe BeforeRelease h s.log) : Sound (s.dropped h c) := by
  have hc := hsound.completions h c hget
  have hheld : h ∈ s.held := (hsound.held h).2 ⟨c, hget, hopen⟩
  have hsizes : (s.dropped h c).sizeOf = s.sizeOf := by
    funext k
    simp only [State.sizeOf, State.dropped, modify_completions]
    split
    · rename_i heq
      simp [heq, hget]
    · rfl
  have hsize : s.sizeOf h = c.size := by simp [State.sizeOf, hget]
  have hsum : c.size + ((s.held.erase h).map s.sizeOf).sum = (s.held.map s.sizeOf).sum := by
    rw [← hsize]
    exact List.sum_map_erase s.sizeOf hheld
  have hothers : ∀ k, k ≠ h → ∀ e ∈ [Event.returned h, .dropped h], ¬ e.Concerns k := by
    intro k hk e hmem
    have hne : h ≠ k := fun heq => hk heq.symm
    simp only [List.mem_cons, List.not_mem_nil, or_false] at hmem
    rcases hmem with rfl | rfl <;> exact hne
  constructor
  · exact hsound.held_nodup.erase h
  · intro k
    simp only [State.dropped, hsound.held_nodup.mem_erase_iff, modify_completions]
    by_cases hk : k = h
    · subst hk
      simp [hget]
    · simp [hk, hsound.held k]
  · intro k hk
    have hfresh : s.completions k = none := hsound.fresh k hk
    simp [State.dropped, modify_completions, hfresh]
  · rw [hsizes]
    show s.bytes - c.size = ((s.held.erase h).map s.sizeOf).sum
    rw [hsound.bytes, ← hsum]
    omega
  · exact (List.length_erase_le).trans hsound.count_le
  · have hle : s.bytes ≤ s.limits.maxOutputBytes := hsound.bytes_le
    have hnonneg := hc.size_nonneg
    show s.bytes - c.size ≤ s.limits.maxOutputBytes
    omega
  · intro k hk e hmem
    simp only [State.dropped, modify_completions] at hk
    by_cases heq : k = h
    · subst heq
      simp [hget] at hk
    · rw [if_neg heq] at hk
      simp only [State.dropped, List.mem_cons] at hmem
      rcases hmem with rfl | rfl | hmem
      · exact hothers k heq _ (by simp)
      · exact hothers k heq _ (by simp)
      · exact hsound.absent k hk e hmem
  · intro k d hd
    simp only [State.dropped, modify_completions] at hd ⊢
    by_cases heq : k = h
    · subst heq
      rw [if_pos rfl, hget] at hd
      cases hd
      have hcount := hc.returned
      rw [hopen] at hcount
      constructor
      · exact hc.size_nonneg
      · rfl
      · simpa using hcount
      · simp
      · simp
      · simp
    · rw [if_neg heq] at hd
      exact ((hsound.completions k d hd).cons (hothers k heq _ (by simp))).cons
        (hothers k heq _ (by simp))
  · refine (hsound.drops.cons fun k heq => ?_).cons fun k heq => by cases heq
    cases heq
    exact hsafe

theorem Sound.hold {s : State W} {owned : Owned} {size : Int} (hsound : Sound s)
    (hcount : s.held.length < s.limits.maxInFlight)
    (hbytes : s.bytes + size ≤ s.limits.maxOutputBytes) (hsize : 0 ≤ size) :
    Sound (s.hold owned size) := by
  have hfresh : s.completions s.submitted = none := hsound.fresh _ (Nat.le_refl _)
  have hnot : s.submitted ∉ s.held := by
    intro hmem
    obtain ⟨c, hget, -⟩ := (hsound.held _).1 hmem
    simp [hfresh] at hget
  have hsizes : ∀ k ∈ s.held, (s.hold owned size).sizeOf k = s.sizeOf k := by
    intro k hk
    have hne : k ≠ s.submitted := fun heq => hnot (heq ▸ hk)
    simp [State.sizeOf, State.hold, hne]
  have hneutral : ∀ k, ¬ (Event.submitted s.submitted owned).Concerns k := fun _ h => h
  constructor
  · refine List.nodup_append.2 ⟨hsound.held_nodup, List.nodup_singleton _, ?_⟩
    intro k hk k' hk' heq
    rw [heq, List.mem_singleton.1 hk'] at hk
    exact hnot hk
  · intro k
    simp only [State.hold, List.mem_append, List.mem_singleton]
    by_cases hk : k = s.submitted
    · simp [hk]
    · simp [hk, hsound.held k]
  · intro k hk
    have hlt : s.submitted + 1 ≤ k := hk
    have hne : k ≠ s.submitted := by omega
    simp only [State.hold, if_neg hne]
    exact hsound.fresh k (by omega)
  · show s.bytes + size = ((s.held ++ [s.submitted]).map (s.hold owned size).sizeOf).sum
    have hlast : (s.hold owned size).sizeOf s.submitted = size := by
      simp [State.sizeOf, State.hold]
    rw [List.map_append, List.sum_append, List.map_congr_left hsizes, hsound.bytes]
    simp [hlast]
  · show (s.held ++ [s.submitted]).length ≤ s.limits.maxInFlight
    rw [List.length_append]
    exact hcount
  · exact hbytes
  · intro k hk e hmem
    simp only [State.hold] at hk
    split at hk
    · cases hk
    · rcases List.mem_cons.1 hmem with rfl | hmem
      · exact hneutral k
      · exact hsound.absent k hk e hmem
  · intro k c hget
    simp only [State.hold] at hget ⊢
    split at hget
    · rename_i heq
      cases hget
      subst heq
      refine TransferCompletion.sound_new hsize fun e hmem => ?_
      rcases List.mem_cons.1 hmem with rfl | hmem
      · exact hneutral _
      · exact hsound.absent _ hfresh e hmem
    · exact (hsound.completions k c hget).cons (hneutral k)
  · exact hsound.drops.cons fun k heq => by cases heq

end SymReloc.Asynchronous
