import SymReloc.Runtime.PipelineProgress

/-!
# The pipelined upload leaves what the sequential one does

With what is in flight done, the device holds the result in the windows of the chunks that have
been submitted and what it held before in the others (`Filled`).  A call that ends without an
error has submitted every chunk and has nothing in flight: the device holds what `executeH2D`
leaves.
-/

namespace SymReloc.Pipelined

open Outcome InFlight
open Cache (TransferCompletion)
open Function (Commute)

variable {call : Call} {axis : WalkAxis} {axes : List WalkAxis} {result memory : Memory UInt8}
  {s s' : State} {d : Int}

/-! ### Copies that commute -/

instance (chunk : Chunk) (d : Int) : Decidable (chunk.Holds d) :=
  inferInstanceAs (Decidable (_ ∧ _))

theorem Upload.run_device (upload : Upload) (store : Store) (d : Int) :
    (upload.run store).device d = if upload.chunk.Holds d
      then store.slots upload.slot (d - upload.chunk.byteOffset) else store.device d := by
  show (if _ then store.slots upload.slot (0 + (d - upload.chunk.byteOffset)) else _) = _
  rw [zero_add]
  rfl

/-- Copies to windows apart commute. -/
theorem Upload.commute {upload other : Upload}
    (hapart : ∀ d, upload.chunk.Holds d → ¬ other.chunk.Holds d) :
    Commute upload.run other.run := by
  intro store
  have hdevice : (upload.run (other.run store)).device = (other.run (upload.run store)).device := by
    funext d
    rw [run_device, run_device, run_device, run_device]
    by_cases hin : upload.chunk.Holds d
    · rw [if_pos hin, if_neg (hapart d hin), if_pos hin]
      rfl
    · rw [if_neg hin, if_neg hin]
      rfl
  exact congrArg (fun device : Memory UInt8 => { store with device := device }) hdevice

/-- A slot that no copy reads may be written before or after them. -/
theorem Upload.commute_write {upload : Upload} {slot : Nat} (hreads : ¬ upload.Reads slot)
    (content : Memory UInt8) : Commute upload.run fun store => store.write slot content := by
  intro store
  have hslot : (store.write slot content).slots upload.slot = store.slots upload.slot :=
    Function.update_of_ne hreads _ _
  show { store.write slot content with
    device := upload.chunk.upload.run ((store.write slot content).slots upload.slot)
      store.device } = _
  rw [hslot]
  rfl

theorem replay_write {flight : Flight Upload} {slot : Nat} (hidle : Idle flight (Upload.Reads slot))
    (store : Store) (content : Memory UInt8) :
    replay Upload.run flight (store.write slot content) =
      (replay Upload.run flight store).write slot content := by
  refine replay_commute (f := fun store : Store => store.write slot content) ?_
  rintro ⟨queue, item⟩ hmem
  cases item with
  | operation upload => exact Upload.commute_write (hidle queue upload hmem) content
  | event handle => exact fun _ => rfl

/-- The copies leave the slots as they are. -/
theorem replay_slots (flight : Flight Upload) (store : Store) :
    (replay Upload.run flight store).slots = store.slots := replay_keeps fun _ _ => rfl

/-! ### Windows -/

/-- The windows of two chunks are apart. -/
theorem Call.Described.apart (h : call.Described axis axes) {j k : Nat} {chunk other : Chunk}
    (hj : call.schedule.chunks[j]? = some chunk) (hk : call.schedule.chunks[k]? = some other)
    (hne : j ≠ k) (hd : chunk.Holds d) : ¬ other.Holds d := by
  intro hother
  have hbounds := h.schedule.tiles.bounds (List.mem_of_getElem? hj)
  obtain ⟨place, -, hunique⟩ := h.schedule.tiles.existsUnique
    (show 0 ≤ d ∧ d < call.bound.totalBytes by
      unfold Chunk.Holds at hd
      omega)
  have hleft := hunique j ⟨chunk, hj, hd⟩
  have hright := hunique k ⟨other, hk, hother⟩
  exact hne (hleft.trans hright.symm)

/-! ### What holds in every state -/

/-- The byte is in the window of one of the first chunks. -/
def Call.Covers (call : Call) (count : Nat) (d : Int) : Prop :=
  ∃ (j : Nat) (chunk : Chunk), j < count ∧ call.schedule.chunks[j]? = some chunk ∧ chunk.Holds d

/-- The chunks that have been submitted, out of `total`. -/
def Phase.count (total : Nat) : Phase → Nat
  | .next k | .fill k _ | .gather k _ | .submit k _ => k
  | .record k _ => k + 1
  | _ => total

/-- The device holds the result where it is covered, and what it held before elsewhere. -/
def Call.Holds (call : Call) (result memory : Memory UInt8) (count : Nat)
    (device : Memory UInt8) : Prop :=
  ∀ d, (call.Covers count d → device d = result d) ∧ (¬ call.Covers count d → device d = memory d)

structure Filled (call : Call) (result memory : Memory UInt8) (s : State) : Prop where
  queued : ∀ queue upload, (queue, .operation upload) ∈ s.flight →
    queue = upload.number % call.queues ∧ call.schedule.chunks[upload.number]? = some upload.chunk
  staged : ∀ k slot, s.phase = .gather k slot → ∀ chunk, call.schedule.chunks[k]? = some chunk →
    ∃ fill old, fillStagingWindow call.bound chunk.bytes = (.ok fill : Outcome TransferError _) ∧
      s.store.slots slot = runCopies (pattern fill.1) fill.2 old
  built : ∀ k slot, s.phase = .submit k slot → ∀ chunk, call.schedule.chunks[k]? = some chunk →
    ∀ d : Int, 0 ≤ d → d < chunk.bytes → s.store.slots slot d = result (chunk.byteOffset + d)
  device : s.fault = none → (∀ error, s.phase ≠ .finished error) →
    call.Holds result memory (s.phase.count call.schedule.chunks.length)
      (replay Upload.run s.flight s.store).device
  finished : s.phase = .finished none →
    call.Holds result memory call.schedule.chunks.length s.store.device

theorem Starts.filled (h : Starts call memory s) : Filled call result memory s := by
  constructor
  · intro queue upload hmem
    rw [h.flight] at hmem
    exact absurd hmem List.not_mem_nil
  · intro k slot hphase
    rw [h.phase] at hphase
    cases hphase
  · intro k slot hphase
    rw [h.phase] at hphase
    cases hphase
  · intro _ _ d
    rw [h.flight, h.phase]
    refine ⟨?_, fun _ => congrFun h.device d⟩
    rintro ⟨j, chunk, hj, -⟩
    exact absurd hj (Nat.not_lt_zero j)
  · intro hphase
    rw [h.phase] at hphase
    cases hphase

/-- Copies of different queues are of different chunks. -/
theorem Filled.queuesCommute (h : Filled call result memory s) (hcall : call.Described axis axes) :
    QueuesCommute Upload.run s.flight := by
  rintro ⟨queue, item⟩ hmem ⟨queue', item'⟩ hmem' hne
  cases item with
  | event handle => exact fun _ => rfl
  | operation upload =>
      cases item' with
      | event handle => exact fun _ => rfl
      | operation other =>
          obtain ⟨hqueue, hchunk⟩ := h.queued queue upload hmem
          obtain ⟨hqueue', hchunk'⟩ := h.queued queue' other hmem'
          refine Upload.commute fun d hd => hcall.apart hchunk hchunk' ?_ hd
          intro hsame
          exact hne (by rw [hqueue, hqueue', hsame])

theorem Call.covers_succ {k : Nat} {chunk : Chunk}
    (hchunk : call.schedule.chunks[k]? = some chunk) :
    call.Covers (k + 1) d ↔ call.Covers k d ∨ chunk.Holds d := by
  constructor
  · rintro ⟨j, other, hj, hother, hd⟩
    by_cases hlast : j = k
    · rw [hlast, hchunk] at hother
      cases hother
      exact .inr hd
    · exact .inl ⟨j, other, by omega, hother, hd⟩
  · rintro (⟨j, other, hj, hother, hd⟩ | hd)
    · exact ⟨j, other, by omega, hother, hd⟩
    · exact ⟨k, chunk, by omega, hchunk, hd⟩

namespace Filled

/-- The host goes on and leaves the store and the flight as they are. -/
theorem advance (h : Filled call result memory s) (hflight : s'.flight = s.flight)
    (hstore : s'.store = s.store) (hfault : s'.fault = s.fault)
    (hrunning : ∀ error, s.phase ≠ .finished error)
    (hgather : ∀ k slot, s'.phase ≠ .gather k slot) (hsubmit : ∀ k slot, s'.phase ≠ .submit k slot)
    (hfinished : s'.phase ≠ .finished none)
    (hcount : s'.phase.count call.schedule.chunks.length =
      s.phase.count call.schedule.chunks.length) : Filled call result memory s' := by
  constructor
  · rw [hflight]
    exact h.queued
  · exact fun k slot hphase => absurd hphase (hgather k slot)
  · exact fun k slot hphase => absurd hphase (hsubmit k slot)
  · rw [hfault, hflight, hstore, hcount]
    exact fun hnone _ => h.device hnone hrunning
  · exact fun hphase => absurd hphase hfinished

/-- The host ends with an error. -/
theorem stopped {error : TransferError} (hphase : s'.phase = .finished (some error))
    (hqueued : ∀ queue upload, (queue, .operation upload) ∈ s'.flight →
      queue = upload.number % call.queues ∧
        call.schedule.chunks[upload.number]? = some upload.chunk) :
    Filled call result memory s' := by
  constructor
  · exact hqueued
  · intro k slot hgather
    rw [hphase] at hgather
    cases hgather
  · intro k slot hsubmit
    rw [hphase] at hsubmit
    cases hsubmit
  · exact fun _ hrunning => absurd hphase (hrunning _)
  · intro hnone
    rw [hphase] at hnone
    cases hnone

/-- A store with a slot written that no copy reads. -/
theorem write (h : Filled call result memory s) {k slot : Nat}
    (hbuilds : s.phase.builds = some slot)
    (hgated : Gated call s) (hcount : s.phase.count call.schedule.chunks.length = k)
    (content : Memory UInt8) (hfault : s.fault = none)
    (hrunning : ∀ error, s.phase ≠ .finished error) : call.Holds result memory k
      (replay Upload.run s.flight (s.store.write slot content)).device := by
  rw [replay_write (hgated.idle slot hbuilds)]
  exact hcount ▸ h.device hfault hrunning

theorem fill (h : Filled call result memory s) (hgated : Gated call s) {k slot : Nat}
    {chunk : Chunk}
    {fill : Nat × List ByteCopy} (hphase : s.phase = .fill k slot)
    (hchunk : call.schedule.chunks[k]? = some chunk)
    (hfill : fillStagingWindow call.bound chunk.bytes = (.ok fill : Outcome TransferError _)) :
    Filled call result memory { s with
      phase := .gather k slot
      store := s.store.write slot (runCopies (pattern fill.1) fill.2 (s.store.slots slot)) } := by
  constructor
  · exact h.queued
  · rintro k' slot' ⟨⟩ chunk' hchunk'
    rw [hchunk] at hchunk'
    cases hchunk'
    exact ⟨fill, s.store.slots slot, hfill, Function.update_self _ _ _⟩
  · intro k' slot' hsubmit
    cases hsubmit
  · intro hfault _
    exact h.write (by rw [hphase]; rfl) hgated (by rw [hphase]; rfl) _ hfault (by rw [hphase]; simp)
  · intro hnone
    cases hnone

theorem gather (h : Filled call result memory s) (hgated : Gated call s)
    (hcall : call.Described axis axes) (hresult : Relocates call.bound axis call.source result)
    {k slot : Nat} {chunk : Chunk} {copies : List ByteCopy} (hphase : s.phase = .gather k slot)
    (hchunk : call.schedule.chunks[k]? = some chunk)
    (hcopies : chunkCopies call.bound chunk (call.dispatch chunk) =
      (.ok copies : Outcome TransferError _)) :
    Filled call result memory { s with
      phase := .submit k slot
      store := s.store.write slot (runCopies call.source copies (s.store.slots slot)) } := by
  have hmem := List.mem_of_getElem? hchunk
  obtain ⟨fill, old, hfill, hold⟩ := h.staged k slot hphase chunk hchunk
  constructor
  · exact h.queued
  · intro k' slot' hgather
    cases hgather
  · rintro k' slot' ⟨⟩ chunk' hchunk' d hd hlt
    rw [hchunk] at hchunk'
    cases hchunk'
    show Function.update s.store.slots slot _ slot d = _
    rw [Function.update_self, hold]
    exact (hcall.schedule.chunks chunk hmem).staged hcall.admitted hcall.axes_eq hcall.row
      (hcall.schedule.tiles.bounds hmem).2 hfill hcall.dispatch hcopies hresult hd hlt
  · intro hfault _
    exact h.write (by rw [hphase]; rfl) hgated (by rw [hphase]; rfl) _ hfault (by rw [hphase]; simp)
  · intro hnone
    cases hnone

theorem submit (h : Filled call result memory s) {k slot : Nat} {chunk : Chunk}
    (hphase : s.phase = .submit k slot) (hchunk : call.schedule.chunks[k]? = some chunk) :
    Filled call result memory { s with
      phase := .record k slot
      completion := .unknown
      ring := s.ring.markPending
      flight := s.flight ++ [(k % call.queues, .operation ⟨slot, k, chunk⟩)] } := by
  constructor
  · intro queue upload hmem
    rcases List.mem_append.mp hmem with hold | hnew
    · exact h.queued queue upload hold
    · cases List.mem_singleton.mp hnew
      exact ⟨rfl, hchunk⟩
  · intro k' slot' hgather
    cases hgather
  · intro k' slot' hsubmit
    cases hsubmit
  · intro hfault _ d
    have hold := h.device hfault (by rw [hphase]; simp) d
    rw [hphase] at hold
    dsimp only
    rw [replay_op, Upload.run_device, replay_slots]
    show (call.Covers (k + 1) d → _) ∧ (¬ call.Covers (k + 1) d → _)
    rw [Call.covers_succ hchunk]
    by_cases hin : chunk.Holds d
    · rw [if_pos hin]
      have hbuilt := h.built k slot hphase chunk hchunk (d - chunk.byteOffset)
      rw [add_sub_cancel] at hbuilt
      unfold Chunk.Holds at hin
      exact ⟨fun _ => hbuilt (by omega) (by omega), fun hnot => absurd (.inr hin) hnot⟩
    · rw [if_neg hin]
      exact ⟨fun hcovered => hold.1 (hcovered.resolve_right hin),
        fun hnot => hold.2 fun hcovered => hnot (.inl hcovered)⟩
  · intro hnone
    cases hnone

theorem record (h : Filled call result memory s) {k slot : Nat}
    (hphase : s.phase = .record k slot) :
    Filled call result memory { s with
      phase := .next (k + 1)
      ring := s.ring.setEvent slot (s.handles + 1)
      handles := s.handles + 1
      flight := s.flight ++ [(k % call.queues, .event (s.handles + 1))] } := by
  constructor
  · intro queue upload hmem
    rcases List.mem_append.mp hmem with hold | hnew
    · exact h.queued queue upload hold
    · cases List.mem_singleton.mp hnew
  · intro k' slot' hgather
    cases hgather
  · intro k' slot' hsubmit
    cases hsubmit
  · intro hfault _
    dsimp only
    rw [replay_event]
    have hold := h.device hfault (by rw [hphase]; simp)
    rw [hphase] at hold
    exact hold
  · intro hnone
    cases hnone

end Filled

/-- Every step keeps what the device holds, and will hold. -/
theorem Filled.step (h : Filled call result memory s) (hgated : Gated call s)
    (hcall : call.Described axis axes) (hresult : Relocates call.bound axis call.source result)
    (hstep : Step call s s') : Filled call result memory s' := by
  cases hstep with
  | acquire hphase hk hready hwait =>
      refine h.advance rfl rfl rfl ?_ ?_ ?_ ?_ ?_
      all_goals simp [hphase, Phase.count]
  | refused hphase hk hrefused hring => exact Filled.stopped rfl h.queued
  | fill hphase hchunk hfill => exact h.fill hgated hphase hchunk hfill
  | gather hphase hchunk hcopies => exact h.gather hgated hcall hresult hphase hchunk hcopies
  | submit hphase hchunk =>
      have hsubmit := h.submit hphase hchunk
      unfold State.unlessFailed
      split
      · exact Filled.stopped rfl hsubmit.queued
      · exact hsubmit
  | dropped hphase hfailed => exact Filled.stopped rfl h.queued
  | record hphase =>
      have hrecord := h.record hphase
      unfold State.unlessFailed
      split
      · exact Filled.stopped rfl hrecord.queued
      · exact hrecord
  | noEvent hphase => exact Filled.stopped rfl h.queued
  | drain hphase =>
      refine h.advance rfl rfl rfl ?_ ?_ ?_ ?_ ?_
      all_goals simp [hphase, Phase.count]
  | wait hphase hslot hwait =>
      refine h.advance rfl rfl rfl ?_ ?_ ?_ ?_ ?_
      all_goals simp [hphase, Phase.count]
  | mark hphase =>
      refine h.advance rfl rfl rfl ?_ ?_ ?_ ?_ ?_
      all_goals simp [hphase, Phase.count]
  | finish hphase hfault =>
      have hdevice := h.device hfault (by rw [hphase]; simp)
      rw [(hgated.finish hphase hfault).replay_eq, hphase] at hdevice
      refine ⟨h.queued, ?_, ?_, ?_, fun _ => hdevice⟩
      · intro k slot hgather
        cases hgather
      · intro k slot hsubmit
        cases hsubmit
      · exact fun _ hrunning => absurd rfl (hrunning none)
  | unfinished hphase hfailed => exact Filled.stopped rfl h.queued
  | @run item flight hruns =>
      have hsubset := hruns.sublist.subset
      have hslots : (item.run Upload.run s.store).slots = s.store.slots := by
        cases item <;> rfl
      constructor
      · exact fun queue upload hmem => h.queued queue upload (hsubset hmem)
      · dsimp only
        rw [hslots]
        exact h.staged
      · dsimp only
        rw [hslots]
        exact h.built
      · dsimp only
        rw [replay_runs hruns (h.queuesCommute hcall)]
        exact h.device
      · intro hphase
        dsimp only
        rw [(hgated.settled hphase).run_eq hruns]
        exact h.finished hphase
  | fault error =>
      refine ⟨h.queued, h.staged, h.built, fun hnone => ?_, h.finished⟩
      cases hnone
  | lose hfailed hsublist =>
      refine ⟨fun queue upload hmem => h.queued queue upload (hsublist.subset hmem), h.staged,
        h.built, fun hnone => ?_, h.finished⟩
      have hnone : s.fault = none := hnone
      rw [State.failed, hnone] at hfailed
      cases hfailed

theorem Reachable.filled (h : Reachable call memory s) (hcall : call.Described axis axes)
    (hresult : Relocates call.bound axis call.source result) : Filled call result memory s := by
  obtain ⟨start, hstart, hsteps⟩ := h
  induction hsteps with
  | refl => exact hstart.filled
  | tail hbefore hstep ih =>
      exact ih.step (Reachable.gated ⟨start, hstart, hbefore⟩) hcall hresult hstep

/-! ### Slots and windows -/

/-- The slot that changes in a step is the one that the host builds. -/
theorem Step.builds (hstep : Step call s s') {slot : Nat}
    (hchanged : s'.store.slots slot ≠ s.store.slots slot) : s.phase.builds = some slot := by
  cases hstep with
  | acquire _ _ _ _ => exact absurd rfl hchanged
  | refused _ _ _ _ => exact absurd rfl hchanged
  | @fill k slot' _ _ hphase _ _ =>
      by_cases hslot : slot = slot'
      · rw [hphase, hslot]
        rfl
      · exact absurd (Function.update_of_ne hslot _ _) hchanged
  | @gather k slot' _ _ hphase _ _ =>
      by_cases hslot : slot = slot'
      · rw [hphase, hslot]
        rfl
      · exact absurd (Function.update_of_ne hslot _ _) hchanged
  | submit _ _ =>
      unfold State.unlessFailed at hchanged
      split at hchanged <;> exact absurd rfl hchanged
  | dropped _ _ => exact absurd rfl hchanged
  | record _ =>
      unfold State.unlessFailed at hchanged
      split at hchanged <;> exact absurd rfl hchanged
  | noEvent _ => exact absurd rfl hchanged
  | drain _ => exact absurd rfl hchanged
  | wait _ _ _ => exact absurd rfl hchanged
  | mark _ => exact absurd rfl hchanged
  | finish _ _ => exact absurd rfl hchanged
  | unfinished _ _ => exact absurd rfl hchanged
  | @run item _ _ => cases item <;> exact absurd rfl hchanged
  | fault _ => exact absurd rfl hchanged
  | lose _ _ => exact absurd rfl hchanged

/-- The windows cover the destination, and nothing else. -/
theorem Call.Described.covers_iff (h : call.Described axis axes) :
    call.Covers call.schedule.chunks.length d ↔ 0 ≤ d ∧ d < call.bound.totalBytes := by
  constructor
  · rintro ⟨j, chunk, -, hchunk, hd⟩
    have hwindow := h.schedule.tiles.bounds (List.mem_of_getElem? hchunk)
    unfold Chunk.Holds at hd
    omega
  · intro hd
    obtain ⟨j, ⟨chunk, hchunk, hholds⟩, -⟩ := h.schedule.tiles.existsUnique hd
    exact ⟨j, chunk, (List.getElem?_eq_some_iff.mp hchunk).1, hchunk, hholds⟩

/-! ### Two cells at a distance -/

/-- The pair of cells three apart, in one chunk. -/
def pairUpload : Call where
  bound := (stridedPair 3).bound
  source := fun address => UInt8.ofNat (address.toNat % 256)
  schedule :=
    { chunks := [⟨0, 2, 0, 2, 0, 4⟩], maxChunkBytes := 4, outerLo := 0, rowBytes := 2,
      serialized := false }
  nBuffers := 2
  bufferBytes := 4
  activeSlots := 1
  queues := 2
  parts := fun chunk => [(chunk.validBegin, chunk.validEnd)]

def pairStart : State where
  phase := .next 0
  ring := { events := fun _ => 0, next := -1, pending := false, missingEvent := false }
  completion := .notLaunched
  flight := []
  handles := 0
  fault := none
  store := { slots := fun _ _ => 0, device := fun _ => 0 }

theorem pairUpload_starts : Starts pairUpload (fun _ => 0) pairStart where
  admitted := by decide +kernel
  phase := rfl
  events := fun _ => rfl
  next := le_refl _
  missingEvent := rfl
  completion := rfl
  flight := rfl
  fault := rfl
  device := rfl

theorem pairUpload_described :
    describeTransfer 1 (stridedPair 3) serialGather = .ok (pairRequirements 8) := by
  decide +kernel

theorem pairUpload_parts (chunk : Chunk) (hrows : chunk.validBegin < chunk.validEnd) :
    Partition chunk.validBegin (pairUpload.parts chunk) chunk.validEnd :=
  partition_single hrows

theorem pairUpload_run : ∃ s, Reachable pairUpload (fun _ => 0) s ∧ s.phase = .finished none := by
  obtain ⟨axis, axes, hcall⟩ := Call.Described.of_describeTransfer (stridedPair_machine 3)
    (by decide)
    pairUpload_described rfl rfl rfl pairUpload_parts
  have hbytes : InBytes pairUpload.bound.elementSize pairUpload.bound.lastCopy :=
    ⟨by decide +kernel, by decide +kernel⟩
  have hreachable : Reachable pairUpload (fun _ => 0) pairStart := ⟨_, pairUpload_starts, .refl⟩
  obtain ⟨s, hsteps, hend⟩ :=
    hreachable.exists_finished hcall hbytes pairUpload_starts.clean
  exact ⟨s, ⟨pairStart, pairUpload_starts, hsteps⟩, hend⟩

/-! ### The upload -/

/-- In every reachable state a step writes a staging slot only when no copy in flight reads it;
    a call is complete, or not launched, only with no copy in flight. -/
theorem pipelined_slot_safe (h : Reachable call memory s) :
    (∀ s' slot, Step call s s' → s'.store.slots slot ≠ s.store.slots slot →
      Idle s.flight (Upload.Reads slot)) ∧
    (s.completion = .complete → Idle s.flight fun _ => True) ∧
    (s.completion = .notLaunched → Idle s.flight fun _ => True) := by
  have hgated := h.gated
  refine ⟨?_, ?_, hgated.launched⟩
  · intro s' slot hstep hchanged
    exact hgated.idle slot (hstep.builds hchanged)
  · intro hcomplete
    exact hgated.settled (hgated.completed hcomplete)

theorem pipelined_slot_safe_pair :
    ∃ s, Reachable pairUpload (fun _ => 0) s ∧ s.phase = .finished none ∧
      (s.completion = .complete → Idle s.flight fun _ => True) := by
  obtain ⟨s, hreachable, hend⟩ := pairUpload_run
  exact ⟨s, hreachable, hend, (pipelined_slot_safe hreachable).2.1⟩

/-- Whatever the order in which the queues run, an upload that ends without an error leaves the
    device as the sequential executor does. -/
theorem pipelined_upload_eq {hardwareThreads : Nat} {request : TransferRequest}
    {options : TransferOptions} {r : TransferRequirements} (hrequest : request.Machine)
    (hbuffers : options.nBuffers < 2 ^ 31)
    (hr : describeTransfer hardwareThreads request options = .ok r)
    (hdirection : request.direction = .hostToDevice) (hbound : call.bound = request.bound)
    (hschedule : r.schedule = some call.schedule)
    (hparts : ∀ chunk : Chunk, chunk.validBegin < chunk.validEnd →
      Partition chunk.validBegin (call.parts chunk) chunk.validEnd)
    (hrun : (executeH2D call.bound call.source memory : Outcome TransferError _) = .ok result)
    (hreachable : Reachable call memory s) (hend : s.phase = .finished none) :
    s.store.device = result := by
  obtain ⟨axis, axes, hcall⟩ :=
    Call.Described.of_describeTransfer hrequest hbuffers hr hdirection hbound hschedule hparts
  obtain ⟨hrelocates, hframe⟩ := hcall.admitted.executeH2D_relocates hcall.axes_eq hrun
  have hholds := (hreachable.filled hcall hrelocates).finished hend
  funext d
  by_cases hd : 0 ≤ d ∧ d < call.bound.totalBytes
  · exact (hholds d).1 (hcall.covers_iff.mpr hd)
  · rw [hframe d hd]
    exact (hholds d).2 fun hcovers => hd (hcall.covers_iff.mp hcovers)

theorem pipelined_upload_eq_pair :
    ∃ s, Reachable pairUpload (fun _ => 0) s ∧ s.phase = .finished none ∧
      [0, 1, 2, 3, 4].map s.store.device = [0, 1, 6, 7, 0] := by
  obtain ⟨s, hreachable, hend⟩ := pairUpload_run
  refine ⟨s, hreachable, hend, ?_⟩
  rw [pipelined_upload_eq (stridedPair_machine 3) (by decide) pairUpload_described rfl rfl rfl
    pairUpload_parts rfl hreachable hend]
  rfl

/-- No run of an upload goes on for ever, none stops before the host has left the call, and where
    nothing fails the call can be brought to its end. -/
theorem pipelined_upload_ends {hardwareThreads : Nat} {request : TransferRequest}
    {options : TransferOptions} {r : TransferRequirements} (hrequest : request.Machine)
    (hbuffers : options.nBuffers < 2 ^ 31)
    (hr : describeTransfer hardwareThreads request options = .ok r)
    (hdirection : request.direction = .hostToDevice) (hbound : call.bound = request.bound)
    (hschedule : r.schedule = some call.schedule)
    (hparts : ∀ chunk : Chunk, chunk.validBegin < chunk.validEnd →
      Partition chunk.validBegin (call.parts chunk) chunk.validEnd)
    (hlast : call.bound.lastCopy * call.bound.elementSize < 2 ^ 63) :
    (WellFounded fun s' s => Step call s s' ∧ s' ≠ s) ∧
    (∀ s, Reachable call memory s → (∀ error, s.phase ≠ .finished error) →
      ∃ s', Step call s s' ∧ s' ≠ s) ∧
    ∀ s, Reachable call memory s → s.Clean →
      ∃ s', Relation.ReflTransGen (Step call) s s' ∧ s'.phase = .finished none := by
  obtain ⟨axis, axes, hcall⟩ :=
    Call.Described.of_describeTransfer hrequest hbuffers hr hdirection hbound hschedule hparts
  have hbytes : InBytes call.bound.elementSize call.bound.lastCopy :=
    ⟨lastStart_nonneg hcall.admitted.walkable (le_refl 0), hlast⟩
  refine ⟨wellFounded_step call, ?_, fun s h => h.exists_finished hcall hbytes⟩
  intro s h hrunning
  obtain ⟨s', hstep, hless, -⟩ := exists_goes h.placed hcall hbytes hrunning
  refine ⟨s', hstep, ?_⟩
  rintro rfl
  exact lt_irrefl _ hless

theorem pipelined_upload_ends_pair :
    ∃ s, Relation.ReflTransGen (Step pairUpload) pairStart s ∧ s.phase = .finished none :=
  (pipelined_upload_ends (stridedPair_machine 3) (by decide) pairUpload_described rfl rfl rfl
    pairUpload_parts (by decide)).2.2 pairStart ⟨_, pairUpload_starts, .refl⟩
      pairUpload_starts.clean

end SymReloc.Pipelined
