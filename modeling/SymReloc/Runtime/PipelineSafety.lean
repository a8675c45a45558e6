import SymReloc.Runtime.PipelineSteps

/-!
# No slot is written while a copy reads it

Behind the event of a slot no copy from the slot is left, and the event is in the queue of every
copy that is (`Gated`).  A step keeps that, and so the host finds a slot idle whenever it writes
one; a call is complete only when nothing is in flight any more.
-/

namespace SymReloc.Pipelined

open Outcome InFlight
open Cache (TransferCompletion)

variable {call : Call} {memory : Memory UInt8} {s s' : State}

/-! ### The slot that a phase is about -/

/-- The slot of a chunk that is built, submitted or recorded. -/
def Phase.slot : Phase → Option Nat
  | .fill _ slot | .gather _ slot | .submit _ slot | .record _ slot => some slot
  | _ => none

theorem Phase.slot_of_builds {phase : Phase} {slot : Nat} (h : slot ∈ phase.builds) :
    slot ∈ phase.slot := by
  cases phase <;> first | exact h | cases h

/-- The events guard the slot: it is not being recorded, and the call is not over. -/
def Phase.Gates : Phase → Nat → Prop
  | .record _ slot', slot => slot ≠ slot'
  | .finished _, _ => False
  | _, _ => True

/-- The waits of the drain that are over. -/
def Phase.Waits (nBuffers : Nat) : Phase → Nat → Prop
  | .drain count, slot => slot < count
  | .drained, slot => slot < nBuffers
  | _, _ => False

/-! ### What holds in every state -/

structure Gated (call : Call) (s : State) : Prop where
  slots : 1 ≤ call.activeSlots ∧ call.activeSlots ≤ call.nBuffers
  next : -1 ≤ s.ring.next
  within : ∀ slot ∈ s.phase.slot, slot < call.activeSlots
  events : ∀ queue handle, (queue, .event handle) ∈ s.flight → handle ≠ 0
  guarded : s.fault = none → ∀ slot, s.phase.Gates slot →
    Guarded (Upload.Reads slot) (s.ring.events slot) s.flight
  recording : ∀ k slot, s.phase = .record k slot → ∀ queue upload,
    (queue, .operation upload) ∈ s.flight → upload.Reads slot → queue = k % call.queues
  idle : ∀ slot ∈ s.phase.builds, Idle s.flight (Upload.Reads slot)
  ringed : ∀ slot, call.nBuffers ≤ slot → s.ring.events slot = 0
  waited : ∀ slot, s.phase.Waits call.nBuffers slot → s.ring.events slot = 0
  settled : s.phase = .finished none → Idle s.flight fun _ => True
  launched : s.completion = .notLaunched → Idle s.flight fun _ => True
  completed : s.completion = .complete → s.phase = .finished none

theorem Starts.gated (h : Starts call memory s) : Gated call s := by
  have hadmit := h.admitted
  simp only [Call.validate, bind_ok_iff, require_eq_ok, exists_unit] at hadmit
  obtain ⟨⟨hpos, hle, -⟩, -⟩ := hadmit
  have hidle : ∀ kind, Idle s.flight kind := by
    intro kind
    rw [h.flight]
    exact idle_nil
  constructor
  · exact ⟨hpos, hle⟩
  · exact h.next
  · intro slot hslot
    rw [h.phase] at hslot
    cases hslot
  · intro queue handle hmem
    rw [h.flight] at hmem
    exact absurd hmem List.not_mem_nil
  · exact fun _ slot _ => (hidle _).guarded _
  · intro k slot hphase
    rw [h.phase] at hphase
    cases hphase
  · exact fun _ _ => hidle _
  · exact fun slot _ => h.events slot
  · exact fun slot _ => h.events slot
  · exact fun _ => hidle _
  · exact fun _ => hidle _
  · intro hcomplete
    rw [h.completion] at hcomplete
    cases hcomplete

namespace Gated

/-- Behind a wait for its event a slot is idle. -/
theorem idle_of_waited (h : Gated call s) (hfault : s.fault = none) {slot : Nat}
    (hgates : s.phase.Gates slot) (hwait : Waited s.flight (s.ring.events slot)) :
    Idle s.flight (Upload.Reads slot) := by
  refine (h.guarded hfault slot hgates).idle ?_
  rcases hwait with hzero | hcomplete
  · rw [hzero]
    rintro ⟨queue, item⟩ hmem rfl
    exact h.events queue 0 hmem rfl
  · exact hcomplete

theorem turn_lt (h : Gated call s) : s.ring.turn call.activeSlots < call.activeSlots := by
  have hpos := h.slots.1
  have hlt := Int.emod_lt_of_pos (s.ring.next + 1) (by omega : (0 : Int) < call.activeSlots)
  have hnonneg := Int.emod_nonneg (s.ring.next + 1) (by omega : (call.activeSlots : Int) ≠ 0)
  unfold Ring.turn
  omega

/-- The host goes on and leaves the flight and the events as they are. -/
theorem advance (h : Gated call s) (hflight : s'.flight = s.flight)
    (hring : s'.ring.next = s.ring.next)
    (hevents : s'.ring.events = s.ring.events) (hfault : s'.fault = s.fault)
    (hcompletion : s'.completion = s.completion) (hrunning : s.phase ≠ .finished none)
    (hslot : ∀ slot ∈ s'.phase.slot, slot ∈ s.phase.slot)
    (hbuilds : ∀ slot ∈ s'.phase.builds, slot ∈ s.phase.builds)
    (hgates : ∀ slot, s'.phase.Gates slot → s.phase.Gates slot)
    (hrecord : ∀ k slot, s'.phase ≠ .record k slot)
    (hwaits : ∀ slot, s'.phase.Waits call.nBuffers slot → s.phase.Waits call.nBuffers slot)
    (hsettled : s'.phase ≠ .finished none) : Gated call s' := by
  constructor
  · exact h.slots
  · rw [hring]
    exact h.next
  · exact fun slot hmem => h.within slot (hslot slot hmem)
  · rw [hflight]
    exact h.events
  · rw [hfault, hflight, hevents]
    exact fun hnone slot hgate => h.guarded hnone slot (hgates slot hgate)
  · exact fun k slot hphase => absurd hphase (hrecord k slot)
  · rw [hflight]
    exact fun slot hmem => h.idle slot (hbuilds slot hmem)
  · rw [hevents]
    exact h.ringed
  · rw [hevents]
    exact fun slot hwait => h.waited slot (hwaits slot hwait)
  · exact fun hphase => absurd hphase hsettled
  · rw [hcompletion, hflight]
    exact h.launched
  · rw [hcompletion]
    exact fun hcomplete => absurd (h.completed hcomplete) hrunning

/-- The host ends with an error. -/
theorem stopped (h : Gated call s) {error : TransferError}
    (hphase : s'.phase = .finished (some error))
    (hnext : -1 ≤ s'.ring.next)
    (hevents : ∀ queue handle, (queue, .event handle) ∈ s'.flight → handle ≠ 0)
    (hringed : ∀ slot, call.nBuffers ≤ slot → s'.ring.events slot = 0)
    (hlaunched : s'.completion = .notLaunched → Idle s'.flight fun _ => True)
    (hcompleted : s'.completion ≠ .complete) : Gated call s' := by
  constructor
  · exact h.slots
  · exact hnext
  · intro slot hslot
    rw [hphase] at hslot
    cases hslot
  · exact hevents
  · intro _ slot hgates
    rw [hphase] at hgates
    exact hgates.elim
  · intro k slot hrecord
    rw [hphase] at hrecord
    cases hrecord
  · intro slot hslot
    rw [hphase] at hslot
    cases hslot
  · exact hringed
  · intro slot hwaits
    rw [hphase] at hwaits
    exact hwaits.elim
  · intro hnone
    rw [hphase] at hnone
    cases hnone
  · exact hlaunched
  · exact fun hcomplete => absurd hcomplete hcompleted

theorem not_complete (h : Gated call s) (hphase : s.phase ≠ .finished none) :
    s.completion ≠ .complete := fun hcomplete => hphase (h.completed hcomplete)

/-- What is in flight becomes less. -/
theorem lessen (h : Gated call s) {flight : Flight Upload} (hsublist : flight.Sublist s.flight)
    {fault : Option String} (hfault : fault = none → s.fault = none) {store : Store}
    (hguarded : s.fault = none → ∀ slot, s.phase.Gates slot →
      Guarded (Upload.Reads slot) (s.ring.events slot) flight) :
    Gated call { s with flight := flight, fault := fault, store := store } := by
  constructor
  · exact h.slots
  · exact h.next
  · exact h.within
  · exact fun queue handle hmem => h.events queue handle (hsublist.subset hmem)
  · exact fun hnone => hguarded (hfault hnone)
  · exact fun k slot hphase queue upload hmem =>
      h.recording k slot hphase queue upload (hsublist.subset hmem)
  · exact fun slot hslot => (h.idle slot hslot).sublist hsublist
  · exact h.ringed
  · exact h.waited
  · exact fun hphase => (h.settled hphase).sublist hsublist
  · exact fun hlaunched => (h.launched hlaunched).sublist hsublist
  · exact h.completed

end Gated

/-! ### Steps -/

theorem Ring.advance_events (ring : Ring) (activeSlots slot : Nat) :
    (ring.advance activeSlots).events slot =
      if slot = ring.turn activeSlots then 0 else ring.events slot :=
  Function.update_apply _ _ _ _

theorem Gated.acquire (h : Gated call s) {k : Nat} (hphase : s.phase = .next k)
    (hfault : s.fault = none)
    (hwait : Waited s.flight (s.ring.events (s.ring.turn call.activeSlots))) :
    Gated call { s with
      phase := .fill k (s.ring.turn call.activeSlots)
      ring := s.ring.advance call.activeSlots } := by
  have hgates : ∀ slot, s.phase.Gates slot := by
    intro slot
    rw [hphase]
    trivial
  have hidle := h.idle_of_waited hfault (hgates _) hwait
  have hturn := h.turn_lt
  constructor
  · exact h.slots
  · show -1 ≤ ((s.ring.turn call.activeSlots : Nat) : Int)
    omega
  · rintro slot ⟨⟩
    exact hturn
  · exact h.events
  · intro _ slot _
    dsimp only
    rw [Ring.advance_events]
    split
    · rename_i heq
      rw [heq]
      exact hidle.guarded 0
    · exact h.guarded hfault slot (hgates slot)
  · intro k' slot hrecord
    cases hrecord
  · rintro slot ⟨⟩
    exact hidle
  · intro slot hslot
    dsimp only
    rw [Ring.advance_events]
    split
    · rfl
    · exact h.ringed slot hslot
  · exact fun slot hwaits => hwaits.elim
  · intro hnone
    cases hnone
  · exact h.launched
  · intro hcomplete
    rw [h.completed hcomplete] at hphase
    cases hphase

theorem Gated.submit (h : Gated call s) {k slot : Nat} (hphase : s.phase = .submit k slot)
    (chunk : Chunk) : Gated call { s with
      phase := .record k slot
      completion := .unknown
      ring := s.ring.markPending
      flight := s.flight ++ [(k % call.queues, .operation ⟨slot, k, chunk⟩)] } := by
  have hslot : slot ∈ s.phase.builds := by
    rw [hphase]
    rfl
  have hidle := h.idle slot hslot
  constructor
  · exact h.slots
  · exact h.next
  · rintro slot' ⟨⟩
    exact h.within slot (Phase.slot_of_builds hslot)
  · intro queue handle hmem
    rcases List.mem_append.mp hmem with hold | hnew
    · exact h.events queue handle hold
    · cases List.mem_singleton.mp hnew
  · intro hfault slot' hne
    refine (h.guarded hfault slot' ?_).append (Idle.guarded (idle_op.mpr fun heq => hne heq.symm) _)
    rw [hphase]
    trivial
  · rintro k' slot' ⟨⟩ queue upload hmem hreads
    rcases List.mem_append.mp hmem with hold | hnew
    · exact absurd hreads (hidle queue upload hold)
    · cases List.mem_singleton.mp hnew
      rfl
  · intro slot' hbuilds
    cases hbuilds
  · exact h.ringed
  · exact fun slot' hwaits => hwaits.elim
  · intro hnone
    cases hnone
  · intro hlaunched
    cases hlaunched
  · intro hcomplete
    cases hcomplete

theorem Gated.record (h : Gated call s) {k slot : Nat} (hphase : s.phase = .record k slot) :
    Gated call { s with
      phase := .next (k + 1)
      ring := s.ring.setEvent slot (s.handles + 1)
      handles := s.handles + 1
      flight := s.flight ++ [(k % call.queues, .event (s.handles + 1))] } := by
  have hwithin := h.within slot (by rw [hphase]; rfl)
  have hslots := h.slots
  have hevents : ∀ slot', (s.ring.setEvent slot (s.handles + 1)).events slot' =
      if slot' = slot then s.handles + 1 else s.ring.events slot' :=
    fun slot' => Function.update_apply _ _ _ _
  constructor
  · exact h.slots
  · exact h.next
  · intro slot' hslot'
    cases hslot'
  · intro queue handle hmem
    rcases List.mem_append.mp hmem with hold | hnew
    · exact h.events queue handle hold
    · cases List.mem_singleton.mp hnew
      omega
  · intro hfault slot' _
    dsimp only
    rw [hevents]
    split
    · rename_i heq
      subst heq
      exact guarded_record (h.recording k slot' hphase)
    · rename_i hne
      refine (h.guarded hfault slot' ?_).append (idle_event.guarded _)
      rw [hphase]
      exact hne
  · intro k' slot' hrecord
    cases hrecord
  · intro slot' hbuilds
    cases hbuilds
  · intro slot' hle
    dsimp only
    rw [hevents, if_neg (by omega)]
    exact h.ringed slot' hle
  · exact fun slot' hwaits => hwaits.elim
  · intro hnone
    cases hnone
  · intro hlaunched
    exact idle_append.mpr ⟨h.launched hlaunched, idle_event⟩
  · intro hcomplete
    rw [h.completed hcomplete] at hphase
    cases hphase

theorem Gated.wait (h : Gated call s) {slot : Nat} (hphase : s.phase = .drain slot)
    (hwait : Waited s.flight (s.ring.events slot) ∨ s.failed = true) :
    Gated call { s with phase := .drain (slot + 1), ring := s.ring.clear slot } := by
  have hgates : ∀ slot, s.phase.Gates slot := by
    intro slot
    rw [hphase]
    trivial
  have hevents : ∀ slot', (s.ring.clear slot).events slot' =
      if slot' = slot then 0 else s.ring.events slot' := fun slot' => Function.update_apply _ _ _ _
  constructor
  · exact h.slots
  · exact h.next
  · intro slot' hslot'
    cases hslot'
  · exact h.events
  · intro hfault slot' _
    dsimp only
    rw [hevents]
    split
    · rename_i heq
      subst heq
      rcases hwait with hwaited | hfailed
      · exact (h.idle_of_waited hfault (hgates slot') hwaited).guarded 0
      · rw [State.failed, show s.fault = none from hfault] at hfailed
        cases hfailed
    · exact h.guarded hfault slot' (hgates slot')
  · intro k' slot' hrecord
    cases hrecord
  · intro slot' hbuilds
    cases hbuilds
  · intro slot' hle
    dsimp only
    rw [hevents]
    split
    · rfl
    · exact h.ringed slot' hle
  · intro slot' hlt
    have hlt : slot' < slot + 1 := hlt
    dsimp only
    rw [hevents]
    split
    · rfl
    · refine h.waited slot' ?_
      rw [hphase]
      show slot' < slot
      omega
  · intro hnone
    cases hnone
  · exact h.launched
  · intro hcomplete
    rw [h.completed hcomplete] at hphase
    cases hphase

/-- With no event left to wait for nothing is in flight. -/
theorem Gated.finish (h : Gated call s) (hphase : s.phase = .drained) (hfault : s.fault = none) :
    Idle s.flight fun _ => True := by
  intro queue upload hmem _
  have hzero : s.ring.events upload.slot = 0 := by
    by_cases hslot : upload.slot < call.nBuffers
    · refine h.waited upload.slot ?_
      rw [hphase]
      exact hslot
    · exact h.ringed upload.slot (by omega)
  refine h.idle_of_waited hfault ?_ (.inl hzero) queue upload hmem rfl
  rw [hphase]
  trivial

/-- Every step keeps the slots gated. -/
theorem Gated.step (h : Gated call s) (hstep : Step call s s') : Gated call s' := by
  cases hstep with
  | acquire hphase _ hready hwait => exact h.acquire hphase hready.1 hwait
  | refused hphase _ _ hring =>
      refine h.stopped rfl ?_ h.events ?_ h.launched (h.not_complete (by rw [hphase]; simp))
      · rcases hring with rfl | rfl
        · exact h.next
        · show -1 ≤ ((s.ring.turn call.activeSlots : Nat) : Int)
          omega
      · rcases hring with rfl | rfl
        · exact h.ringed
        · intro slot hslot
          show (s.ring.advance call.activeSlots).events slot = 0
          rw [Ring.advance_events]
          split
          · rfl
          · exact h.ringed slot hslot
  | fill hphase _ _ =>
      refine h.advance rfl rfl rfl rfl rfl (by rw [hphase]; simp) ?_ ?_ ?_ ?_ ?_ ?_
      all_goals simp [hphase, Phase.slot, Phase.builds, Phase.Gates, Phase.Waits]
  | gather hphase _ _ =>
      refine h.advance rfl rfl rfl rfl rfl (by rw [hphase]; simp) ?_ ?_ ?_ ?_ ?_ ?_
      all_goals simp [hphase, Phase.slot, Phase.builds, Phase.Gates, Phase.Waits]
  | @submit k slot chunk hphase _ =>
      have hsubmit := h.submit hphase chunk
      unfold State.unlessFailed
      split
      · exact hsubmit.stopped rfl hsubmit.next hsubmit.events hsubmit.ringed hsubmit.launched
          (by simp [State.stop])
      · exact hsubmit
  | dropped hphase _ =>
      refine h.stopped rfl h.next h.events h.ringed ?_ ?_
      · intro hlaunched
        cases hlaunched
      · simp [State.stop]
  | @record k slot hphase =>
      have hrecord := h.record hphase
      unfold State.unlessFailed
      split
      · exact hrecord.stopped rfl hrecord.next hrecord.events hrecord.ringed hrecord.launched
          (h.not_complete (by rw [hphase]; simp))
      · exact hrecord
  | @noEvent k slot hphase =>
      refine h.stopped rfl h.next h.events ?_ h.launched (h.not_complete (by rw [hphase]; simp))
      intro slot' hle
      show Function.update s.ring.events slot 0 slot' = 0
      rw [Function.update_apply]
      split
      · rfl
      · exact h.ringed slot' hle
  | drain hphase =>
      refine h.advance rfl rfl rfl rfl rfl (by rw [hphase]; simp) ?_ ?_ ?_ ?_ ?_ ?_
      all_goals simp [hphase, Phase.slot, Phase.builds, Phase.Gates, Phase.Waits]
  | wait hphase _ hwait => exact h.wait hphase hwait
  | mark hphase =>
      refine h.advance rfl ?_ ?_ rfl rfl (by rw [hphase]; simp) ?_ ?_ ?_ ?_ ?_ ?_
      · dsimp only
        split <;> rfl
      · dsimp only
        split <;> rfl
      all_goals simp [hphase, Phase.slot, Phase.builds, Phase.Gates, Phase.Waits]
  | finish hphase hfault =>
      have hidle := h.finish hphase hfault
      constructor
      · exact h.slots
      · exact h.next
      · intro slot hslot
        cases hslot
      · exact h.events
      · exact fun _ slot hgates => hgates.elim
      · intro k slot hrecord
        cases hrecord
      · intro slot hbuilds
        cases hbuilds
      · exact h.ringed
      · exact fun slot hwaits => hwaits.elim
      · exact fun _ => hidle
      · exact fun _ => hidle
      · exact fun _ => rfl
  | unfinished hphase _ =>
      exact h.stopped rfl h.next h.events h.ringed h.launched
        (h.not_complete (by rw [hphase]; simp))
  | run hruns =>
      exact h.lessen hruns.sublist id fun hfault slot hgates =>
        (h.guarded hfault slot hgates).runs hruns
  | fault error =>
      refine h.lessen (List.Sublist.refl _) (fun hnone => ?_) h.guarded
      cases hnone
  | lose hfailed hsublist =>
      refine h.lessen hsublist id fun hfault => ?_
      rw [State.failed, hfault] at hfailed
      cases hfailed

theorem Reachable.gated (h : Reachable call memory s) : Gated call s := by
  obtain ⟨start, hstart, hsteps⟩ := h
  induction hsteps with
  | refl => exact hstart.gated
  | tail _ hstep ih => exact ih.step hstep

end SymReloc.Pipelined
