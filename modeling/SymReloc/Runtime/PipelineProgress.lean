import SymReloc.Runtime.PipelineSafety

/-!
# The pipelined upload ends

Every step that changes a state makes less of what is left to do (`State.work`), and in a state
that the host has not left there is such a step: a slot or a drain that waits for an event waits
for a queue that still holds something.  A call on which nothing fails ends without an error.
-/

namespace SymReloc.Pipelined

open Outcome InFlight
open Relation (ReflTransGen)

variable {call : Call} {axis : WalkAxis} {axes : List WalkAxis} {memory : Memory UInt8}
  {s s' : State}

/-! ### What a call relies on -/

/-- The plan is admitted, the schedule tiles the destination, and the pool divides the rows. -/
structure Call.Described (call : Call) (axis : WalkAxis) (axes : List WalkAxis) : Prop where
  admitted : call.bound.Admitted
  axes_eq : call.bound.walkAxes = axis :: axes
  row : FitsI64 (axis.dstStride * call.bound.elementSize)
  schedule : call.schedule.Sound call.bound axis
  parts : ∀ chunk : Chunk, chunk.validBegin < chunk.validEnd →
    Partition chunk.validBegin (call.parts chunk) chunk.validEnd

namespace Call.Described

/-- A call with the schedule of a described upload. -/
theorem of_describeTransfer {hardwareThreads : Nat} {request : TransferRequest}
    {options : TransferOptions} {r : TransferRequirements} (hrequest : request.Machine)
    (hbuffers : options.nBuffers < 2 ^ 31)
    (hr : describeTransfer hardwareThreads request options = .ok r)
    (hdirection : request.direction = .hostToDevice) (hbound : call.bound = request.bound)
    (hschedule : r.schedule = some call.schedule)
    (hparts : ∀ chunk : Chunk, chunk.validBegin < chunk.validEnd →
      Partition chunk.validBegin (call.parts chunk) chunk.validEnd) :
    ∃ axis axes, call.Described axis axes := by
  obtain ⟨axis, axes, hdescribed⟩ :=
    (sat_describeTransfer hrequest hbuffers hardwareThreads).of_ok hr
  obtain ⟨schedule, hsame, hsound, -⟩ := hdescribed.upload hdirection
  obtain rfl := Option.some.inj (hsame.symm.trans hschedule)
  refine ⟨axis, axes, ?_⟩
  constructor
  · rw [hbound]
    exact hdescribed.admitted
  · rw [hbound]
    exact hdescribed.axes_eq
  · rw [hbound]
    exact hdescribed.row
  · rw [hbound]
    exact hsound
  · exact hparts

theorem dispatch (h : call.Described axis axes) {chunk : Chunk}
    (hrows : chunk.validBegin < chunk.validEnd) :
    Partition chunk.validBegin (call.dispatch chunk) chunk.validEnd := by
  unfold Call.dispatch
  split
  · exact partition_single hrows
  · exact h.parts chunk hrows

/-- The slot of a chunk of the schedule is filled and gathered without an error. -/
theorem exists_staged (h : call.Described axis axes)
    (hlast : InBytes call.bound.elementSize call.bound.lastCopy) {chunk : Chunk}
    (hchunk : chunk ∈ call.schedule.chunks) :
    (∃ fill, fillStagingWindow call.bound chunk.bytes = (.ok fill : Outcome TransferError _)) ∧
      ∃ copies, chunkCopies call.bound chunk (call.dispatch chunk) =
        (.ok copies : Outcome TransferError _) := by
  have hsound := h.schedule.chunks chunk hchunk
  have hwindow := h.schedule.tiles.bounds hchunk
  constructor
  · obtain ⟨count, hcount⟩ := hsound.whole
    rw [hcount] at hwindow ⊢
    have hbytes : (count * call.bound.elementSize : Nat) ≤ call.bound.totalBytes := by omega
    obtain ⟨fill, hfill, -⟩ := exists_fillStagingWindow (ε := TransferError) h.admitted hbytes
    exact ⟨fill, hfill⟩
  · by_cases hrows : chunk.validBegin < chunk.validEnd
    · exact exists_chunkCopies hsound h.admitted h.axes_eq h.row (by omega) (h.dispatch hrows) hlast
    · exact ⟨[], by rw [chunkCopies, if_neg hrows]⟩

end Call.Described

/-! ### Where the host can be -/

/-- The chunks and the slots that the host is at are there. -/
def Phase.Placed (chunks nBuffers : Nat) : Phase → Prop
  | .next k => k ≤ chunks
  | .fill k _ | .gather k _ | .submit k _ | .record k _ => k < chunks
  | .drain slot => slot ≤ nBuffers
  | _ => True

def State.Placed (call : Call) (s : State) : Prop :=
  s.phase.Placed call.schedule.chunks.length call.nBuffers

theorem State.Placed.unlessFailed {what : String} {phase : Phase}
    (h : phase.Placed call.schedule.chunks.length call.nBuffers) :
    (s.unlessFailed what phase).Placed call := by
  unfold State.unlessFailed
  split
  · trivial
  · exact h

theorem State.Placed.step (h : s.Placed call) (hstep : Step call s s') : s'.Placed call := by
  unfold State.Placed at h
  cases hstep with
  | acquire _ hk _ _ => exact hk
  | refused _ _ _ _ => trivial
  | fill hphase _ _ =>
      rw [hphase] at h
      exact h
  | gather hphase _ _ =>
      rw [hphase] at h
      exact h
  | submit hphase _ =>
      rw [hphase] at h
      exact State.Placed.unlessFailed h
  | dropped _ _ => trivial
  | record hphase =>
      rw [hphase] at h
      exact State.Placed.unlessFailed h
  | noEvent _ => trivial
  | drain _ => exact Nat.zero_le _
  | wait _ hslot _ => exact hslot
  | mark _ => trivial
  | finish _ _ => trivial
  | unfinished _ _ => trivial
  | run _ => exact h
  | fault _ => exact h
  | lose _ _ => exact h

theorem Reachable.placed (h : Reachable call memory s) : s.Placed call := by
  obtain ⟨start, hstart, hsteps⟩ := h
  induction hsteps with
  | refl =>
      unfold State.Placed
      rw [hstart.phase]
      exact Nat.zero_le _
  | tail _ hstep ih => exact ih.step hstep

/-! ### What is left to do -/

/-- The steps of the host, those of the queues for what it still submits among them. -/
def Phase.work (chunks nBuffers : Nat) : Phase → Nat
  | .next k => 10 * (chunks - k) + nBuffers + 3
  | .fill k _ => 10 * (chunks - (k + 1)) + nBuffers + 12
  | .gather k _ => 10 * (chunks - (k + 1)) + nBuffers + 11
  | .submit k _ => 10 * (chunks - (k + 1)) + nBuffers + 10
  | .record k _ => 10 * (chunks - (k + 1)) + nBuffers + 7
  | .drain slot => nBuffers - slot + 2
  | .drained => 1
  | .finished _ => 0

def State.work (call : Call) (s : State) : Nat :=
  s.phase.work call.schedule.chunks.length call.nBuffers + s.flight.length +
    s.fault.elim 1 fun _ => 0

theorem State.work_unlessFailed (what : String) (phase : Phase) :
    (s.unlessFailed what phase).work call ≤ ({ s with phase := phase } : State).work call := by
  unfold State.unlessFailed
  split
  · simp only [State.work, State.stop, Phase.work]
    omega
  · exact le_refl _

/-- A step leaves less to do, or the state as it is. -/
theorem Step.work (hstep : Step call s s') : s' = s ∨ s'.work call < s.work call := by
  cases hstep with
  | acquire hphase hk _ _ =>
      right
      simp only [State.work, hphase, Phase.work]
      omega
  | refused hphase _ _ _ =>
      right
      simp only [State.work, State.stop, hphase, Phase.work]
      omega
  | fill hphase _ _ =>
      right
      simp only [State.work, hphase, Phase.work]
      omega
  | gather hphase _ _ =>
      right
      simp only [State.work, hphase, Phase.work]
      omega
  | submit hphase _ =>
      right
      refine lt_of_le_of_lt (State.work_unlessFailed _ _) ?_
      simp only [State.work, hphase, Phase.work, List.length_append, List.length_singleton]
      omega
  | dropped hphase _ =>
      right
      simp only [State.work, State.stop, hphase, Phase.work]
      omega
  | record hphase =>
      right
      refine lt_of_le_of_lt (State.work_unlessFailed _ _) ?_
      simp only [State.work, hphase, Phase.work, List.length_append, List.length_singleton]
      omega
  | noEvent hphase =>
      right
      simp only [State.work, State.stop, hphase, Phase.work]
      omega
  | drain hphase =>
      right
      simp only [State.work, hphase, Phase.work]
      omega
  | wait hphase hslot _ =>
      right
      simp only [State.work, hphase, Phase.work]
      omega
  | mark hphase =>
      right
      simp only [State.work, hphase, Phase.work]
      omega
  | finish hphase _ =>
      right
      simp only [State.work, hphase, Phase.work]
      omega
  | unfinished hphase _ =>
      right
      simp only [State.work, State.stop, hphase, Phase.work]
      omega
  | run hruns =>
      right
      have hlength := hruns.length
      simp only [State.work]
      omega
  | fault error =>
      cases hfault : s.fault with
      | none =>
          right
          simp [State.work, hfault]
      | some first =>
          left
          exact congrArg (fun fault => { s with fault := fault }) hfault.symm
  | @lose flight _ hsublist =>
      by_cases hlength : flight.length = s.flight.length
      · left
        rw [hsublist.eq_of_length hlength]
      · right
        have hle := hsublist.length_le
        simp only [State.work]
        omega

/-- No run changes the state for ever. -/
theorem wellFounded_step (call : Call) :
    WellFounded fun s' s => Step call s s' ∧ s' ≠ s := by
  refine Subrelation.wf ?_ (measure (State.work call)).wf
  rintro s' s ⟨hstep, hne⟩
  exact hstep.work.resolve_left hne

/-! ### No state is stuck -/

/-- Nothing has failed. -/
structure State.Clean (s : State) : Prop where
  fault : s.fault = none
  missingEvent : s.ring.missingEvent = false
  phase : ∀ error, s.phase ≠ .finished (some error)

theorem State.Clean.unlessFailed {what : String} {phase : Phase} (hfault : s.fault = none)
    (hevent : s.ring.missingEvent = false) (hphase : ∀ error, phase ≠ .finished (some error)) :
    (s.unlessFailed what phase).Clean := by
  unfold State.unlessFailed State.failed
  rw [hfault]
  exact ⟨rfl, hevent, hphase⟩

/-- A wait is over, or a queue has something to do for it. -/
theorem waited_or_runs (flight : Flight Upload) (event : Nat) :
    Waited flight event ∨ ∃ item flight', Runs flight item flight' := by
  cases flight with
  | nil => exact .inl (.inr fun entry hmem => absurd hmem List.not_mem_nil)
  | cons entry rest => exact .inr ⟨entry.2, rest, runs_head⟩

/-- The host goes on. -/
def Goes (call : Call) (s s' : State) : Prop :=
  Step call s s' ∧ s'.work call < s.work call ∧ (s.Clean → s'.Clean)

theorem goes_of_phase (hstep : Step call s s') (hphase : s'.phase ≠ s.phase)
    (hclean : s.Clean → s'.Clean) : Goes call s s' := by
  refine ⟨hstep, hstep.work.resolve_left ?_, hclean⟩
  rintro rfl
  exact hphase rfl

theorem goes_of_runs {item : Item Upload} {flight : Flight Upload}
    (hruns : Runs s.flight item flight) :
    Goes call s { s with flight := flight, store := item.run Upload.run s.store } := by
  refine ⟨.run hruns, ?_, fun hclean => ⟨hclean.fault, hclean.missingEvent, hclean.phase⟩⟩
  have hlength := hruns.length
  simp only [State.work]
  omega

/-- Until the host leaves the call it can go on. -/
theorem exists_goes (hplaced : s.Placed call) (hcall : call.Described axis axes)
    (hlast : InBytes call.bound.elementSize call.bound.lastCopy)
    (hrunning : ∀ error, s.phase ≠ .finished error) : ∃ s', Goes call s s' := by
  unfold State.Placed at hplaced
  cases hphase : s.phase with
  | next k =>
      rw [hphase] at hplaced
      rcases Nat.lt_or_eq_of_le hplaced with hk | rfl
      · by_cases hready : s.fault = none ∧ s.ring.missingEvent = false
        · rcases waited_or_runs s.flight (s.ring.events (s.ring.turn call.activeSlots)) with
            hwait | ⟨item, flight, hruns⟩
          · exact ⟨_, goes_of_phase (.acquire hphase hk hready hwait) (by simp [hphase])
              fun _ => ⟨hready.1, hready.2, by simp⟩⟩
          · exact ⟨_, goes_of_runs hruns⟩
        · have hrefused : s.failed = true ∨ s.ring.missingEvent = true := by
            rw [State.failed, Option.isSome_iff_ne_none, ← Bool.not_eq_false]
            exact not_and_or.mp hready
          exact ⟨_, goes_of_phase (.refused hphase hk hrefused (.inl rfl))
            (by simp [hphase, State.stop])
            fun hclean => absurd ⟨hclean.fault, hclean.missingEvent⟩ hready⟩
      · exact ⟨_, goes_of_phase (.drain hphase) (by simp [hphase])
          fun hclean => ⟨hclean.fault, hclean.missingEvent, by simp⟩⟩
  | fill k slot =>
      rw [hphase] at hplaced
      have hk : k < call.schedule.chunks.length := hplaced
      have hchunk := List.getElem?_eq_getElem hk
      obtain ⟨⟨fill, hfill⟩, -⟩ := hcall.exists_staged hlast (List.mem_of_getElem? hchunk)
      exact ⟨_, goes_of_phase (.fill hphase hchunk hfill) (by simp [hphase])
        fun hclean => ⟨hclean.fault, hclean.missingEvent, by simp⟩⟩
  | gather k slot =>
      rw [hphase] at hplaced
      have hk : k < call.schedule.chunks.length := hplaced
      have hchunk := List.getElem?_eq_getElem hk
      obtain ⟨-, copies, hcopies⟩ := hcall.exists_staged hlast (List.mem_of_getElem? hchunk)
      exact ⟨_, goes_of_phase (.gather hphase hchunk hcopies) (by simp [hphase])
        fun hclean => ⟨hclean.fault, hclean.missingEvent, by simp⟩⟩
  | submit k slot =>
      rw [hphase] at hplaced
      have hk : k < call.schedule.chunks.length := hplaced
      have hchunk := List.getElem?_eq_getElem hk
      refine ⟨_, goes_of_phase (.submit hphase hchunk) ?_ fun hclean => ?_⟩
      · unfold State.unlessFailed
        split <;> simp [hphase, State.stop]
      · exact State.Clean.unlessFailed hclean.fault hclean.missingEvent (by simp)
  | record k slot =>
      refine ⟨_, goes_of_phase (.record hphase) ?_ fun hclean => ?_⟩
      · unfold State.unlessFailed
        split <;> simp [hphase, State.stop]
      · have hevent : (s.ring.setEvent slot (s.handles + 1)).missingEvent = false := by
          simp [Ring.setEvent, hclean.missingEvent]
        exact State.Clean.unlessFailed hclean.fault hevent (by simp)
  | drain slot =>
      rw [hphase] at hplaced
      rcases Nat.lt_or_eq_of_le hplaced with hslot | rfl
      · rcases waited_or_runs s.flight (s.ring.events slot) with hwait | ⟨item, flight, hruns⟩
        · exact ⟨_, goes_of_phase (.wait hphase hslot (.inl hwait)) (by simp [hphase])
            fun hclean => ⟨hclean.fault, hclean.missingEvent, by simp⟩⟩
        · exact ⟨_, goes_of_runs hruns⟩
      · refine ⟨_, goes_of_phase (.mark hphase) (by simp [hphase]) fun hclean => ?_⟩
        refine ⟨hclean.fault, ?_, by simp⟩
        dsimp only
        split
        · exact hclean.missingEvent
        · rfl
  | drained =>
      cases hfault : s.fault with
      | none =>
          exact ⟨_, goes_of_phase (.finish hphase hfault) (by simp [hphase])
            fun hclean => ⟨hclean.fault, hclean.missingEvent, by simp⟩⟩
      | some error =>
          refine ⟨_, goes_of_phase (.unfinished hphase (by simp [State.failed, hfault]))
            (by simp [hphase, State.stop]) fun hclean => ?_⟩
          rw [hclean.fault] at hfault
          cases hfault
  | finished error => exact absurd hphase (hrunning error)

/-- A call on which nothing fails ends. -/
theorem Reachable.exists_finished (h : Reachable call memory s) (hcall : call.Described axis axes)
    (hlast : InBytes call.bound.elementSize call.bound.lastCopy) (hclean : s.Clean) :
    ∃ s', ReflTransGen (Step call) s s' ∧ s'.phase = .finished none := by
  induction hwork : s.work call using Nat.strong_induction_on generalizing s with
  | _ work ih =>
      by_cases hdone : s.phase = .finished none
      · exact ⟨s, .refl, hdone⟩
      · have hrunning : ∀ error, s.phase ≠ .finished error := by
          rintro (_ | error)
          · exact hdone
          · exact hclean.phase error
        obtain ⟨next, hstep, hless, hkeeps⟩ := exists_goes h.placed hcall hlast hrunning
        obtain ⟨start, hstart, hsteps⟩ := h
        obtain ⟨last, hlater, hfinished⟩ := ih _ (hwork ▸ hless) ⟨start, hstart, hsteps.tail hstep⟩
          (hkeeps hclean) rfl
        exact ⟨last, hlater.head hstep, hfinished⟩

theorem Starts.clean (h : Starts call memory s) : s.Clean := by
  refine ⟨h.fault, h.missingEvent, ?_⟩
  intro error hphase
  rw [h.phase] at hphase
  cases hphase

end SymReloc.Pipelined
