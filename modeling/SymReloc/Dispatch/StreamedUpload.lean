import SymReloc.Dispatch.StreamSteps

/-!
# How a streamed upload ends

In every run the copy of a chunk is enqueued once, after all of its rows are in the
staging, and a call that succeeds leaves on the device what one run over all rows leaves.
The staging is released with copies in flight only where the last event was not recorded
or its wait failed, or where an exception left a worker (`streamed_upload`).
-/

namespace SymReloc.Streaming

open Outcome Writes Ledger

variable {c : StreamCall} {rowCells : Int} {initial : Memory Nat} {s t : StreamState} {w : Worker}

/-! ### Every run -/

/-- The copies that are enqueued: each once, after every worker has written its rows of the
    chunk, and all of them where no worker fails. -/
def StreamState.Enqueues (c : StreamCall) (initial : Memory Nat) (s : StreamState) : Prop :=
  s.submitted.Nodup ∧
    (∀ k ∈ s.submitted, ∀ w ∈ s.workers, 0 < c.rows k w.range → k < w.next) ∧
    (s.released = false → ∀ aligned written,
      Executes c.program 0 c.boundary none aligned c.source initial (.ok written) →
      ∀ k ∈ s.submitted, ∀ cell, c.holds k cell = true → s.staging cell = written cell) ∧
    (s.workers ≠ [] → (∀ w ∈ s.workers, w.phase = .stopped) → s.failed = false →
      ∀ k < c.schedule.chunks.length, k ∈ s.submitted)

/-- A call that succeeds: its copies are complete, or are left to the group, and then the
    device has the result of the run over all rows. -/
def StreamState.Uploads (c : StreamCall) (initial : Memory Nat) (s : StreamState) : Prop :=
  s.ended = some .success → (c.drain = true → s.inFlight = []) ∧
    (s.inFlight = [] → ∀ aligned result,
      Executes c.program 0 c.boundary none aligned c.source initial result →
      ∃ written, result = .ok written ∧
        ∀ cell, 0 ≤ cell → cell < c.program.resultElements → s.device cell = written cell)

/-- The end of a call establishes that the copies in flight are complete: no exception has
    left a worker, the final event was recorded and its wait did not fail.  Where nothing is
    in flight, or the backend keeps the staging, there is nothing to establish. -/
def Establishes (c : StreamCall) (s : StreamState) : Action → Prop
  | .settle answer => s.inFlight = [] ∨ c.retains = true ∨
      ((∀ w ∈ s.workers, w.phase ≠ .thrown) ∧ answer.establishes = true)
  | _ => True

theorem Invariant.enqueues (h : Invariant c rowCells initial s) (hrowed : c.Rowed rowCells) :
    s.Enqueues c initial := by
  refine ⟨h.nodup_submitted, fun k hk => (h.counted.of_submitted hk).2.2,
    fun hopen aligned written hexecutes k hk cell hcell => ?_,
    fun hne hstopped hfailed k hk => h.all_submitted hne hstopped hfailed hk⟩
  rw [hrowed.single aligned initial written hexecutes]
  exact h.staged_of_submitted hrowed hopen hk hcell

theorem Invariant.uploads (h : Invariant c rowCells initial s) (hrowed : c.Rowed rowCells) :
    s.Uploads c initial := by
  intro hsuccess
  obtain ⟨⟨hne, hstopped⟩, hfailed, hbackend, hdrain⟩ := h.delivered.success hsuccess
  have hdecided : ∀ chunk ∈ c.schedule.chunks, ∀ range ∈ c.ranges,
      (chunk.share range).1 < (chunk.share range).2 →
      ∃ aligned writes, chunkWrites c.program 0 c.boundary (c.schedule.shareWindow chunk range)
        aligned c.source = .ok writes := by
    intro chunk hchunk range hrange hshare
    rw [← h.placed.ranges hne, List.mem_map] at hrange
    obtain ⟨w, hw, rfl⟩ := hrange
    obtain ⟨k, hk⟩ := List.mem_iff_getElem?.mp hchunk
    have hend := h.placed.finished hfailed w hw (hstopped w hw)
    have hlt := (List.getElem?_eq_some_iff.mp hk).1
    exact h.placed.decided w hw k chunk hk (.inl (by omega)) hshare
  refine ⟨hdrain, fun hflight aligned result hexecutes => ?_⟩
  obtain ⟨written, rfl⟩ := hrowed.whole aligned initial result hexecutes hdecided
  refine ⟨written, rfl, fun cell hlow hhigh => ?_⟩
  rw [hrowed.single aligned initial written hexecutes]
  rw [← hrowed.rows] at hhigh
  obtain ⟨k, chunk, hk, hin⟩ := hrowed.covered (cell / rowCells)
    (Int.ediv_nonneg hlow hrowed.pos.le) ((Int.ediv_lt_iff_lt_mul hrowed.pos).mpr hhigh)
  have hsubmitted := h.all_submitted hne hstopped hfailed (List.getElem?_eq_some_iff.mp hk).1
  rcases h.delivered.arrived (.inr hsuccess) hbackend k hsubmitted with hflying | harrived
  · simp [hflight] at hflying
  · exact harrived cell ((hrowed.holds_iff hk).mpr hin)

/-- A turn of a worker does not end the call and enqueues nothing. -/
theorem advance_keeps {aligned : Bool} {partialWrites : List CellWrite}
    (hstep : c.advance s w aligned partialWrites = some t) :
    t.ended = s.ended ∧ t.inFlight = s.inFlight := by
  unfold StreamCall.advance at hstep
  split at hstep
  · unfold StreamCall.scan at hstep
    dsimp only at hstep
    repeat' split at hstep
    all_goals cases hstep
    all_goals exact ⟨rfl, rfl⟩
  · unfold StreamCall.write at hstep
    split at hstep <;> cases hstep
    exact ⟨rfl, rfl⟩
  · cases hstep
    unfold StreamCall.finish
    split
    · exact ⟨rfl, rfl⟩
    · dsimp only
      split <;> exact ⟨rfl, rfl⟩
  all_goals cases hstep

/-- What is in flight after a call's end, where its end establishes completion. -/
theorem Invariant.quiet_step (h : Invariant c rowCells initial s) {a : Action}
    (hquiet : s.ended ≠ none → s.inFlight = [] ∨ c.retains = true) (ha : Establishes c s a)
    (hstep : Streaming.step c s a = some t) (hended : t.ended ≠ none) :
    t.inFlight = [] ∨ c.retains = true := by
  cases a with
  | enter queues allocated =>
    simp only [Streaming.step] at hstep
    split at hstep
    · cases hstep
    · rename_i hentered
      cases hstep
      obtain ⟨hworkers, -, -⟩ := h.delivered.idle (by simpa using hentered)
      have hnone := h.submitted_of_idle hworkers
      have hflight : s.inFlight = [] := List.eq_nil_iff_forall_not_mem.mpr fun k hk => by
        simpa [hnone] using h.delivered.flight k hk
      refine .inl (Eq.trans ?_ hflight)
      unfold StreamCall.enter
      split
      · rfl
      · split <;> rfl
  | advance w aligned partialWrites =>
    simp only [Streaming.step] at hstep
    split at hstep
    · cases hstep
    · obtain ⟨hend, hflight⟩ := advance_keeps hstep
      rw [hflight]
      exact hquiet (hend ▸ hended)
  | throws w =>
    simp only [Streaming.step] at hstep
    split at hstep
    · cases hstep
    · unfold StreamCall.throws at hstep
      split at hstep
      all_goals cases hstep
      all_goals exact hquiet hended
  | submit w accepted failing =>
    simp only [Streaming.step] at hstep
    split at hstep
    · cases hstep
    · rename_i hfound
      have hw := List.mem_of_find?_eq_some hfound
      unfold StreamCall.submit at hstep
      split at hstep
      · rename_i hphase
        cases hstep
        exact absurd (h.going hw (.inl (by rw [hphase]; rfl))) hended
      all_goals cases hstep
  | complete =>
    simp only [Streaming.step, StreamCall.complete] at hstep
    split at hstep
    · cases hstep
    · rename_i hflight
      cases hstep
      rcases hquiet hended with hnone | hretains
      · rw [hnone] at hflight
        cases hflight
      · exact .inr hretains
  | settle answer =>
    simp only [Streaming.step] at hstep
    split at hstep
    · cases hstep
      rcases ha with hnone | hretains | ⟨hthrown, hanswer⟩
      · refine .inl ?_
        unfold StreamCall.settle StreamCall.settleQueue
        split
        · exact hnone
        split
        · split
          · rfl
          · exact hnone
        split
        · exact hnone
        · split
          · rfl
          · exact hnone
      · exact .inr hretains
      · unfold StreamCall.settle StreamCall.settleQueue
        rw [if_pos hanswer, if_neg]
        · split
          · exact .inl rfl
          split
          · rename_i hdrain
            exact .inr (c.undrained hdrain)
          · exact .inl rfl
        · intro hany
          obtain ⟨w, hw, hphase⟩ := List.any_eq_true.mp hany
          exact hthrown w hw (by simpa using hphase)
    · cases hstep
  | release leftover =>
    simp only [Streaming.step] at hstep
    split at hstep
    · rename_i hguard
      cases hstep
      simp only [Bool.and_eq_true, Option.isSome_iff_ne_none] at hguard
      unfold StreamCall.release
      split
      · exact hquiet hguard.1.2
      · exact hquiet hguard.1.2
    · cases hstep

/-- In every run the copies of a streamed upload are enqueued once each, after their rows are
    staged, and a call that succeeds uploads the result.  In a run whose end establishes
    completion the staging is not released while a copy may read it. -/
theorem streamed_upload {data : List UInt8} {plan : TypedRelocationPlan} {map : SymbolMap}
    {parameters : ParameterMap} {bound : TypedBoundPlan} (c : StreamCall)
    (hdecode : decodeTypedPlan data = .ok plan) (hbind : bindTyped plan map parameters = .ok bound)
    (hprepare : prepareProgram bound = .ok c.program) (initial device : Memory Nat)
    (s : StreamState) :
    ((system c initial device).Reachable s → s.Enqueues c initial ∧ s.Uploads c initial) ∧
      ((system c initial device).Run (Establishes c) s →
        s.released = true → s.inFlight = []) := by
  obtain ⟨rowCells, hrowed⟩ := c.exists_rowed (Program.sound hdecode hbind hprepare)
  refine ⟨fun h => ?_, fun h hreleased => ?_⟩
  · have hinv := Invariant.of_reachable hrowed h
    exact ⟨hinv.enqueues hrowed, hinv.uploads hrowed⟩
  · have hinv := Invariant.of_reachable hrowed h.reachable
    have hquiet : s.ended ≠ none → s.inFlight = [] ∨ c.retains = true := by
      refine System.Run.invariant_with (fun s hs => Invariant.of_reachable hrowed hs)
        (fun s hs => ?_) (fun s a t hs _ hquiet ha hstep => hs.quiet_step hquiet ha hstep) h
      rw [show s = .start initial device from hs]
      exact fun hne => absurd rfl hne
    have hended : s.ended ≠ none := fun hnone => by
      rw [(hinv.delivered.live hnone).1] at hreleased
      cases hreleased
    rcases hquiet hended with hnone | hretains
    · exact hnone
    · rw [hinv.delivered.held hreleased] at hretains
      cases hretains

/-! ### A copy that fails -/

theorem amend_amend {entries : List Worker} {n : Nat} {a b : Worker} (ha : a.id = n) :
    amend Worker.id (amend Worker.id entries n fun _ => a) n (fun _ => b) =
      amend Worker.id entries n fun _ => b := by
  unfold amend
  rw [List.map_map]
  refine List.map_congr_left fun e _ => ?_
  by_cases he : e.id = n <;> simp [he, ha]

theorem move_self {s : StreamState} {w : Worker} :
    StreamCall.move (StreamCall.move s w) w = StreamCall.move s w := by
  simp only [StreamCall.move, amend_amend]

theorem workerAt_move {s : StreamState} {w w' : Worker} (h : s.workerAt w.id = some w)
    (hid : w'.id = w.id) : (StreamCall.move s w').workerAt w.id = some w' := by
  have hsame : (fun x : Worker => decide (x.id = w.id)) ∘
      (fun e => if e.id = w'.id then w' else e) = fun x => decide (x.id = w.id) := by
    funext e
    rw [hid]
    by_cases he : e.id = w.id <;> simp [he, hid]
  unfold StreamState.workerAt StreamCall.move amend at *
  rw [List.find?_map, hsame, h, Option.map_some, if_pos hid.symm]

/-- A worker that has a window to write comes to the end of it. -/
theorem stage_window {c : StreamCall} {initial device : Memory Nat} {s : StreamState} {w : Worker}
    {writes : List CellWrite} (h : (system c initial device).Run (Establishes c) s)
    (hw : s.workerAt w.id = some w) (hphase : w.phase = .staging writes none)
    (hsame : StreamCall.move s w = s) {chunk : Chunk}
    (hk : c.schedule.chunks[w.next]? = some chunk) :
    ∃ staging, (system c initial device).Run (Establishes c)
      (StreamCall.move { s with staging } { w with phase := .staging [] none }) := by
  induction writes generalizing s w with
  | nil =>
    refine ⟨s.staging, ?_⟩
    rw [← hphase]
    show (system c initial device).Run (Establishes c) (StreamCall.move s w)
    rwa [hsame]
  | cons entry rest ih =>
    generalize horigin : (c.schedule.shareWindow chunk w.range).byteOffset / c.wire.elementSize =
      origin
    have hstep : step c s (.advance w.id true []) = some (StreamCall.move
        { s with staging := Function.update s.staging (entry.cell + origin) entry.value }
        { w with phase := .staging rest none }) := by
      simp only [step, hw, StreamCall.advance, hphase, StreamCall.write, hk, horigin]
    have hworker : StreamState.workerAt (StreamCall.move
        { s with staging := Function.update s.staging (entry.cell + origin) entry.value }
        { w with phase := .staging rest none }) w.id =
          some { w with phase := .staging rest none } :=
      workerAt_move hw rfl
    obtain ⟨staging, hreach⟩ := ih (.next (Action.advance w.id true []) h trivial hstep) hworker rfl
      move_self hk
    refine ⟨staging, ?_⟩
    simp only [StreamCall.move, amend_amend] at hreach ⊢
    exact hreach

/-- A worker writes the window it has of its next chunk. -/
theorem write_window {c : StreamCall} {initial device : Memory Nat} {s : StreamState} {w : Worker}
    (h : (system c initial device).Run (Establishes c) s) (hw : s.workerAt w.id = some w)
    (hphase : w.phase = .scanning) (hfailed : s.failed = false) {chunk : Chunk}
    (hk : c.schedule.chunks[w.next]? = some chunk)
    (hshare : (chunk.share w.range).1 < (chunk.share w.range).2)
    (hwrites : ∃ writes, chunkWrites c.program 0 c.boundary
      (c.schedule.shareWindow chunk w.range) true c.source = .ok writes) :
    ∃ staging, (system c initial device).Run (Establishes c)
      (StreamCall.move { s with staging } { w with phase := .staging [] none }) := by
  obtain ⟨writes, hwrites⟩ := hwrites
  have hstep : step c s (.advance w.id true []) =
      some (StreamCall.move s { w with phase := .staging writes none }) := by
    simp only [step, hw, StreamCall.advance, hphase, StreamCall.scan, hfailed, hk,
      if_neg (not_le.mpr hshare), hwrites, Bool.false_eq_true, if_false]
  have hworker : StreamState.workerAt (StreamCall.move s { w with phase := .staging writes none })
      w.id = some { w with phase := .staging writes none } := workerAt_move hw rfl
  have hbegin : (system c initial device).Run (Establishes c)
      (StreamCall.move s { w with phase := .staging writes none }) :=
    .next (Action.advance w.id true []) h trivial hstep
  obtain ⟨staging, hreach⟩ := stage_window hbegin hworker rfl move_self hk
  refine ⟨staging, ?_⟩
  simp only [StreamCall.move, amend_amend] at hreach ⊢
  exact hreach

/-- A cast of 131072 values to half the width: two chunks, each with rows of its own worker. -/
def halves : TypedRelocationPlan where
  symbols := []
  source := denseDesc [131072]
  result := halfDesc [131072]
  layout :=
    { symbols := []
      src := denseDesc [131072]
      dst := halfDesc [131072]
      perm := [0]
      axes := [constantAxis 131072 1]
      padFill := []
      divisibility := []
      alignment := []
      contiguity := []
      noCopy := false
      runtimePadCheck := false
      inverse := [[.pushDim 0]] }
  stages := [halfStage [131072]]
  fills := []

def halvesBound : TypedBoundPlan where
  layout :=
    { extents := [131072]
      srcStrides := [1]
      dstStrides := [1]
      perm := [0]
      padRegions := []
      elementSize := 2
      totalBytes := 262144
      noCopy := false
      typed := true
      strategy := .singleThreadSimd
      L := 131072
      requiredAlignments := [] }
  sourceExtents := [131072]
  resultExtents := [131072]
  sourceType := ⟨.float, 32⟩
  resultType := ⟨.float, 16⟩
  symbols := []
  stages :=
    [{ transform := .cast
       policy := .ieeeRne
       input := ⟨⟨.float, 32⟩, .signless⟩
       output := ⟨⟨.float, 16⟩, .signless⟩
       shape := [131072]
       axis := -1
       channel := none
       scale := none
       zeroPoint := none }]
  fills := []
  cuts := [⟨0, ⟨.float, 32⟩, 131072, 524288⟩, ⟨1, ⟨.float, 16⟩, 131072, 262144⟩]
  sourceBytes := 524288
  destinationBytes := 262144
  parameterBytes := 0
  requirements := ["typed_execution_dispatch"]

def halvesProgram : Program where
  plan := halvesBound
  stages :=
    [{ transform := .cast
       policy := .ieeeRne
       input := ⟨.float, 32⟩
       output := ⟨.float, 16⟩
       scale := []
       invScale := []
       zeroPoint := []
       perChannel := false
       channelIsDim := false
       channelDim := 0
       channelLength := 1 }]
  resultStrides := [1]
  sourceElements := 131072
  resultElements := 131072

/-- The upload of the cast by two workers, on a backend that frees what it is told to. -/
def halvesUpload : StreamCall where
  program := halvesProgram
  boundary := 1
  source := fun _ => 0
  wire := halvesBound.layout
  schedule :=
    { chunks := [⟨0, 65536, 0, 65536, 0, 131072⟩, ⟨65536, 131072, 65536, 131072, 131072, 131072⟩]
      maxChunkBytes := 131072
      outerLo := 0
      rowBytes := 2
      serialized := false }
  ranges := [(0, 65536), (65536, 131072)]
  drain := true
  retains := false
  settled := by decide
  accepted := by decide +kernel
  divided := ⟨rfl, by decide, rfl, by decide, rfl⟩
  undrained := nofun

theorem halves_ready : decodeTypedPlan (writeTypedPlan halves) = .ok halves ∧
    bindTyped halves noSymbols noParameters = .ok halvesBound ∧
    prepareProgram halvesBound = .ok halvesProgram := by
  decide +kernel

/-- The windows of the two workers can be written. -/
theorem halves_writes (chunk : Chunk) (hchunk : chunk ∈ halvesUpload.schedule.chunks)
    (range : Int × Int) (hshare : (chunk.share range).1 < (chunk.share range).2) :
    ∃ writes, chunkWrites halvesUpload.program 0 halvesUpload.boundary
      (halvesUpload.schedule.shareWindow chunk range) true halvesUpload.source = .ok writes := by
  obtain ⟨hdecode, hbind, hprepare⟩ := halves_ready
  obtain ⟨axis, axes, g⟩ := halvesUpload.exists_grid (Program.sound hdecode hbind hprepare)
  have hcall : ∃ call, prologue halvesUpload.program 0 halvesUpload.boundary none
      halvesUpload.source = .ok call ∧ call.kernel ≠ .generic := ⟨_, rfl, by decide⟩
  obtain ⟨call, hcall, hkernel⟩ := hcall
  exact g.exists_writes hchunk hshare hcall hkernel true

/-- The state of the upload with its two workers. -/
def halvesState (first second : Worker) (staging : Memory Nat) (remaining : Nat → Int)
    (submitted inFlight : List Nat) (backendFailed : Bool) : StreamState where
  entered := true
  workers := [first, second]
  staging := staging
  device := fun _ => 0
  remaining := remaining
  failed := false
  error := none
  backendFailed := backendFailed
  submitted := submitted
  inFlight := inFlight
  ended := none
  released := false

/-- Both copies are enqueued; the backend takes the second one, or refuses it and has failed. -/
theorem halves_joined (accepted : Bool) : ∃ staging remaining,
    (system halvesUpload (fun _ => 0) fun _ => 0).Run (Establishes halvesUpload)
      (halvesState ⟨0, (0, 65536), 2, .stopped⟩ ⟨1, (65536, 131072), 2, .stopped⟩ staging remaining
        [0, 1] (if accepted then [0, 1] else [0]) !accepted) := by
  have hstart : (system halvesUpload (fun _ => 0) fun _ => 0).Run (Establishes halvesUpload)
      (halvesState ⟨0, (0, 65536), 0, .scanning⟩ ⟨1, (65536, 131072), 0, .scanning⟩ (fun _ => 0)
        halvesUpload.chunkRows [] [] false) :=
    .next (Action.enter true true) (.start rfl) trivial rfl
  -- the first worker, to its end
  obtain ⟨first, hfirst⟩ := write_window (w := ⟨0, (0, 65536), 0, .scanning⟩) hstart rfl rfl rfl rfl
    (by decide) (halves_writes ⟨0, 65536, 0, 65536, 0, 131072⟩ (by decide) (0, 65536) (by decide))
  have hcount := System.Run.next (Action.advance 0 true []) hfirst trivial rfl
  have hsubmit := System.Run.next (Action.submit 0 true false) hcount trivial rfl
  have hskip := System.Run.next (Action.advance 0 true []) hsubmit trivial rfl
  have hstop := System.Run.next (Action.advance 0 true []) hskip trivial rfl
  -- the second one
  have hskip' := System.Run.next (Action.advance 1 true []) hstop trivial rfl
  obtain ⟨second, hsecond⟩ := write_window (w := ⟨1, (65536, 131072), 1, .scanning⟩) hskip' rfl rfl
    rfl rfl (by decide) (halves_writes ⟨65536, 131072, 65536, 131072, 131072, 131072⟩ (by decide)
      (65536, 131072) (by decide))
  have hcount' := System.Run.next (Action.advance 1 true []) hsecond trivial rfl
  cases accepted with
  | false =>
    have hrefused := System.Run.next (Action.submit 1 false true) hcount' trivial rfl
    have hstop' := System.Run.next (Action.advance 1 true []) hrefused trivial rfl
    exact ⟨second, _, hstop'⟩
  | true =>
    have htaken := System.Run.next (Action.submit 1 true false) hcount' trivial rfl
    have hstop' := System.Run.next (Action.advance 1 true []) htaken trivial rfl
    exact ⟨second, _, hstop'⟩

/-- Both copies are in flight when the call ends; it records the last event and waits for it, and
    nothing reads the staging when it is released. -/
theorem streamed_upload_halves : ∃ s,
    (system halvesUpload (fun _ => 0) fun _ => 0).Run (Establishes halvesUpload) s ∧
      s.submitted = [0, 1] ∧ s.ended = some .success ∧ s.released = true ∧
      s.Enqueues halvesUpload (fun _ => 0) ∧ s.Uploads halvesUpload (fun _ => 0) ∧
      s.inFlight = [] := by
  obtain ⟨staging, remaining, hjoined⟩ := halves_joined true
  have hsettle := System.Run.next (Action.settle ⟨true, true, false⟩) hjoined
    (.inr (.inr ⟨by simp [halvesState], rfl⟩)) rfl
  have hrelease := System.Run.next (Action.release fun _ => 0) hsettle trivial rfl
  obtain ⟨hdecode, hbind, hprepare⟩ := halves_ready
  have hupload := streamed_upload halvesUpload hdecode hbind hprepare (fun _ => 0) fun _ => 0
  obtain ⟨henqueues, huploads⟩ := (hupload _).1 hrelease.reachable
  exact ⟨_, hrelease, rfl, rfl, rfl, henqueues, huploads, (hupload _).2 hrelease rfl⟩

/-- The second copy fails, no event is recorded, and the staging is released while the first
    copy is in flight. -/
theorem streamed_upload_freed :
    (decodeTypedPlan (writeTypedPlan halves) = .ok halves ∧
      bindTyped halves noSymbols noParameters = .ok halvesBound ∧
      prepareProgram halvesBound = .ok halvesUpload.program) ∧
    ∃ s, (system halvesUpload (fun _ => 0) fun _ => 0).Reachable s ∧
      s.ended = some (.backendFailure "streamed chunk copy failed") ∧
      s.released = true ∧ s.inFlight = [0] := by
  obtain ⟨staging, remaining, hrefused⟩ := halves_joined false
  have hsettle := System.Run.next (Action.settle ⟨false, false, true⟩) hrefused.reachable trivial
    rfl
  have hrelease := System.Run.next (Action.release fun _ => 0) hsettle trivial rfl
  exact ⟨halves_ready, _, hrelease, rfl, rfl, rfl⟩

end SymReloc.Streaming
