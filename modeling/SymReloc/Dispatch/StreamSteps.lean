import SymReloc.Dispatch.StreamInvariant

/-!
# The steps of a streamed upload

What is enqueued is staged, and every step of the workers, of the device and of the caller
keeps what holds in a run (`Invariant.step`).
-/

namespace SymReloc.Streaming

open Outcome Writes Ledger

variable {c : StreamCall} {rowCells : Int} {initial : Memory Nat} {s t : StreamState} {w : Worker}
  {k : Nat}

/-! ### Copies that are enqueued -/

/-- Every worker has counted its rows of a chunk whose copy is enqueued. -/
theorem Counted.of_submitted (h : Counted c s) (hk : k ∈ s.submitted) :
    k < c.schedule.chunks.length ∧ s.workers ≠ [] ∧
      ∀ w ∈ s.workers, 0 < c.rows k w.range → k < w.next := by
  have hcount := List.count_pos_iff.mpr hk
  have hsubmits := h.submits k
  split at hsubmits
  · rename_i hall
    obtain ⟨hlt, hne, hzero⟩ := hall
    refine ⟨hlt, hne, fun w hw hrows => ?_⟩
    by_contra hge
    have := h.rows_le hw (Nat.not_lt.mp hge)
    omega
  · omega

/-- What is enqueued is staged. -/
theorem Invariant.staged_of_submitted (h : Invariant c rowCells initial s)
    (hrowed : c.Rowed rowCells) (hopen : s.released = false) (hk : k ∈ s.submitted) {cell : Int}
    (hcell : c.holds k cell = true) : s.staging cell = c.reference initial cell := by
  obtain ⟨hlt, hne, hcounted⟩ := h.counted.of_submitted hk
  have hchunk := List.getElem?_eq_getElem hlt
  obtain ⟨range, hrange, hin⟩ := hrowed.exists_share hchunk ((hrowed.holds_iff hchunk).mp hcell)
  rw [← h.placed.ranges hne, List.mem_map] at hrange
  obtain ⟨w, hw, rfl⟩ := hrange
  refine (h.staged hopen w hw).counted k _ hchunk (hcounted w hw ?_) cell hin
  have hrows := StreamCall.rows_eq hchunk w.range
  have := lt_of_le_of_lt hin.1 hin.2
  omega

theorem Invariant.nodup_submitted (h : Invariant c rowCells initial s) : s.submitted.Nodup := by
  rw [List.nodup_iff_count_le_one]
  intro k
  have hsubmits := h.counted.submits k
  split at hsubmits <;> omega

/-- When no worker has failed, every copy is enqueued. -/
theorem Invariant.all_submitted (h : Invariant c rowCells initial s) (hne : s.workers ≠ [])
    (hstopped : ∀ w ∈ s.workers, w.phase = .stopped) (hfailed : s.failed = false)
    (hk : k < c.schedule.chunks.length) : k ∈ s.submitted := by
  have hzero : ∀ charge : Worker → Nat, (∀ w ∈ s.workers, charge w = 0) →
      total charge s.workers = 0 := by
    intro charge hall
    rw [total, List.sum_eq_zero]
    intro x hx
    obtain ⟨w, hw, rfl⟩ := List.mem_map.mp hx
    exact hall w hw
  have hremaining := h.counted.remaining k
  rw [hzero (Worker.owes c k) fun w hw => if_neg (by
    have := h.placed.finished hfailed w hw (hstopped w hw)
    omega)] at hremaining
  have hsubmits := h.counted.submits k
  rw [hzero (Worker.pending k) fun w hw => if_neg (by
    intro hpending
    rw [hstopped w hw] at hpending
    cases hpending),
    if_pos ⟨hk, hne, hremaining⟩] at hsubmits
  exact List.count_pos_iff.mp (by omega)

/-! ### The caller and the device -/

/-- The rows of a chunk, range by range. -/
theorem sum_rows (lo hi : Int) {start finish : Int} {parts : List (Int × Int)}
    (h : Partition start parts finish) :
    ((parts.map fun part => (max 0 (min part.2 hi - max part.1 lo)).toNat).sum : Int) =
      max 0 (min finish hi - max start lo) := by
  induction parts generalizing start with
  | nil =>
    obtain rfl : start = finish := h
    simp only [List.map_nil, List.sum_nil, Nat.cast_zero]
    omega
  | cons part rest ih =>
    obtain ⟨rfl, hlt, hrest⟩ := h
    have hsum := ih hrest
    have hle := hrest.le
    simp only [List.map_cons, List.sum_cons, Nat.cast_add]
    omega

theorem StreamCall.Rowed.ranges_ne (h : c.Rowed rowCells) : c.ranges ≠ [] := by
  intro hnil
  have hdivided := c.divided
  rw [hnil] at hdivided
  have hzero : (0 : Int) = c.schedule.streamRows := hdivided
  have hlength : c.schedule.chunks ≠ [] := by
    obtain ⟨-, -, ⟨-, last, hlast, -⟩, -⟩ := Program.streamSchedule_eq_ok c.accepted
    exact List.ne_nil_of_mem (List.mem_of_getLast? hlast)
  obtain ⟨chunk, hchunk⟩ := List.exists_mem_of_ne_nil _ hlength
  have := h.chunks chunk hchunk
  omega

namespace Invariant

theorem start (c : StreamCall) (staging device : Memory Nat) :
    Invariant c rowCells staging (.start staging device) := by
  refine ⟨⟨List.nodup_nil, fun hne => absurd rfl hne, nofun, fun _ => nofun, nofun⟩,
    ⟨fun _ => rfl, fun k => ?_⟩, fun _ => nofun, ⟨nofun, fun _ _ => nofun, nofun,
      fun _ => ⟨rfl, nofun⟩, fun _ => ⟨rfl, rfl, rfl⟩, nofun, fun hne => absurd rfl hne⟩⟩
  simp [StreamState.start]

/-- Before the dispatch nothing is enqueued. -/
theorem submitted_of_idle (h : Invariant c rowCells initial s) (hworkers : s.workers = []) :
    s.submitted = [] := by
  rw [List.eq_nil_iff_forall_not_mem]
  intro k hk
  exact (h.counted.of_submitted hk).2.1 hworkers

/-- A call that returns before the dispatch. -/
theorem refuse (h : Invariant c rowCells initial s) (hidle : s.entered = false)
    (backendFailed : Bool) (phase : String) :
    Invariant c rowCells initial
      { s with
        entered := true, backendFailed := backendFailed
        ended := some (.backendFailure phase) } := by
  obtain ⟨hworkers, -, -⟩ := h.delivered.idle hidle
  refine ⟨⟨h.placed.ids, h.placed.ranges, h.placed.next_le, h.placed.finished, h.placed.decided⟩,
    ⟨h.counted.remaining, h.counted.submits⟩, h.staged,
    ⟨h.delivered.flight, ?_, nofun, nofun, nofun, h.delivered.held, fun _ => ?_⟩⟩
  · intro hwell
    rcases hwell with hnone | hsuccess
    · cases hnone
    · cases hsuccess
  · simp [StreamState.joined, hworkers]

/-- The counts of the chunks at the start of the dispatch. -/
theorem chunkRows_eq (hrowed : c.Rowed rowCells) (k : Nat) :
    c.chunkRows k = (total (Worker.owes c k) c.workers : Int) := by
  have hlist : total (Worker.owes c k) c.workers =
      (c.ranges.map fun range => (c.rows k range).toNat).sum := by
    have hranges : c.ranges = c.ranges.zipIdx.map Prod.fst := (List.zipIdx_map_fst 0 _).symm
    conv_rhs => rw [hranges]
    rw [total, StreamCall.workers, List.map_map, List.map_map]
    refine congrArg List.sum (List.map_congr_left fun entry _ => ?_)
    simp [Worker.owes]
  rw [hlist]
  cases hk : c.schedule.chunks[k]? with
  | none => simp [StreamCall.chunkRows, StreamCall.rows, hk]
  | some chunk =>
    have hrows := hrowed.chunks chunk (List.mem_of_getElem? hk)
    have hsum := sum_rows chunk.validBegin chunk.validEnd c.divided
    rw [StreamCall.chunkRows, hk]
    have hsame : (c.ranges.map fun range => (c.rows k range).toNat) = c.ranges.map fun part =>
        (max 0 (min part.2 chunk.validEnd - max part.1 chunk.validBegin)).toNat :=
      List.map_congr_left fun range _ => by rw [StreamCall.rows_eq hk]; rfl
    rw [hsame, hsum]
    simp only
    omega

/-- The dispatch begins, or the call returns. -/
theorem enter (h : Invariant c rowCells initial s) (hrowed : c.Rowed rowCells)
    (hidle : s.entered = false) (queues allocated : Bool) :
    Invariant c rowCells initial (c.enter s queues allocated) := by
  obtain ⟨hworkers, hstaging, hended⟩ := h.delivered.idle hidle
  have hnone := h.submitted_of_idle hworkers
  unfold StreamCall.enter
  split
  · exact h.refuse hidle s.backendFailed _
  split
  · exact h.refuse hidle true _
  have hne : c.workers ≠ [] := by
    simpa [StreamCall.workers] using hrowed.ranges_ne
  have hfresh : ∀ w ∈ c.workers, w.next = 0 ∧ w.phase = .scanning := by
    intro w hw
    obtain ⟨entry, -, rfl⟩ := List.mem_map.mp hw
    exact ⟨rfl, rfl⟩
  refine ⟨⟨?_, fun _ => ?_, fun w hw => ?_, fun _ w hw hstopped => ?_, fun w hw => ?_⟩,
    ⟨chunkRows_eq hrowed, fun k => ?_⟩, fun _ w hw => ?_,
    ⟨h.delivered.flight, fun _ _ k hk => ?_, fun hsuccess => ?_, fun _ => ⟨?_, fun _ => hne⟩,
      fun hidle => absurd hidle (by simp),
      h.delivered.held, fun hne' => absurd hended hne'⟩⟩
  · have hids : c.workers.map Worker.id = c.ranges.zipIdx.map Prod.snd := by
      rw [StreamCall.workers, List.map_map]
      rfl
    show (c.workers.map Worker.id).Nodup
    rw [hids, List.zipIdx_map_snd]
    exact List.nodup_range'
  · show c.workers.map Worker.range = c.ranges
    rw [StreamCall.workers, List.map_map]
    exact List.zipIdx_map_fst 0 _
  · rw [(hfresh w hw).1]
    exact Nat.zero_le _
  · rw [(hfresh w hw).2] at hstopped
    cases hstopped
  · intro k chunk hk hplace
    obtain ⟨hnext, hphase⟩ := hfresh w hw
    rw [hnext, hphase] at hplace
    rcases hplace with hlt | ⟨-, _, hwriting⟩
    · cases hlt
    · cases hwriting
  · have hpending : total (Worker.pending k) c.workers = 0 := by
      rw [total, List.sum_eq_zero]
      intro x hx
      obtain ⟨w, hw, rfl⟩ := List.mem_map.mp hx
      refine if_neg fun hpending => ?_
      rw [(hfresh w hw).2] at hpending
      cases hpending
    show s.submitted.count k + total (Worker.pending k) c.workers = _
    rw [hnone, hpending, if_neg]
    · rfl
    · rintro ⟨hk, -, hzero⟩
      have hchunk := List.getElem?_eq_getElem hk
      have hrows := hrowed.chunks _ (List.getElem_mem hk)
      have hcount : c.chunkRows k = 0 := hzero
      rw [StreamCall.chunkRows, hchunk] at hcount
      simp only at hcount
      omega
  · obtain ⟨hnext, hphase⟩ := hfresh w hw
    refine ⟨fun k chunk hk hlt => ?_, fun _ _ _ _ _ _ => ?_, fun writes failure hwriting => ?_⟩
    · rw [hnext] at hlt
      cases hlt
    · exact congrFun hstaging _
    · rw [hphase] at hwriting
      cases hwriting
  · simp [hnone] at hk
  · rw [hended] at hsuccess
    cases hsuccess
  · exact (h.delivered.live hended).1

/-- A call that has ended well holds its staging until nothing is in flight. -/
theorem not_released_of_flight (h : Invariant c rowCells initial s) (hwell : s.well)
    (hflight : s.inFlight ≠ []) : s.released = false := by
  rcases hwell with hnone | hsuccess
  · exact (h.delivered.live hnone).1
  · by_contra hreleased
    have hretains := h.delivered.held (by simpa using hreleased)
    have hdrain : c.drain = true := by
      by_contra hundrained
      have := c.undrained (by simpa using hundrained)
      rw [hretains] at this
      cases this
    exact hflight ((h.delivered.success hsuccess).2.2.2 hdrain)

/-- The device takes the copy at the head of the queue. -/
theorem complete (h : Invariant c rowCells initial s) (hrowed : c.Rowed rowCells)
    (hstep : c.complete s = some t) : Invariant c rowCells initial t := by
  unfold StreamCall.complete at hstep
  split at hstep
  · cases hstep
  · rename_i k rest hflight
    cases hstep
    refine ⟨⟨h.placed.ids, h.placed.ranges, h.placed.next_le, h.placed.finished, h.placed.decided⟩,
      ⟨h.counted.remaining, h.counted.submits⟩, h.staged,
      ⟨fun j hj => ?_, fun hwell hbackend j hj => ?_, fun hsuccess => ?_, h.delivered.live,
        h.delivered.idle, h.delivered.held, h.delivered.joined⟩⟩
    · exact h.delivered.flight j (by rw [hflight]; exact List.mem_cons_of_mem _ hj)
    · have hopen := h.not_released_of_flight hwell (by rw [hflight]; exact List.cons_ne_nil _ _)
      have hk : k ∈ s.submitted := h.delivered.flight k (by rw [hflight]; exact List.mem_cons_self)
      have hcopied : ∀ cell, c.holds k cell = true →
          c.upload s.staging s.device k cell = c.reference initial cell := by
        intro cell hcell
        rw [StreamCall.upload, if_pos hcell]
        exact h.staged_of_submitted hrowed hopen hk hcell
      rcases h.delivered.arrived hwell hbackend j hj with hflying | harrived
      · rw [hflight] at hflying
        rcases List.mem_cons.mp hflying with rfl | hrest
        · exact .inr hcopied
        · exact .inl hrest
      · refine .inr fun cell hcell => ?_
        by_cases hin : c.holds k cell = true
        · exact hcopied cell hin
        · show c.upload s.staging s.device k cell = _
          rw [StreamCall.upload, if_neg hin]
          exact harrived cell hcell
    · obtain ⟨hstopped, hfailed, hbackend, hdrained⟩ := h.delivered.success hsuccess
      refine ⟨hstopped, hfailed, hbackend, fun hdrain => ?_⟩
      rw [hflight] at hdrained
      cases hdrained hdrain

end Invariant

/-- Copies whose chunks are staged bring them to the device. -/
theorem upload_all (c : StreamCall) {staging : Memory Nat} (value : Memory Nat) {copies : List Nat}
    (hstaged : ∀ k ∈ copies, ∀ cell, c.holds k cell = true → staging cell = value cell)
    (device : Memory Nat) :
    (∀ cell, device cell = value cell →
        copies.foldl (c.upload staging) device cell = value cell) ∧
      ∀ k ∈ copies, ∀ cell, c.holds k cell = true →
        copies.foldl (c.upload staging) device cell = value cell := by
  induction copies generalizing device with
  | nil => exact ⟨fun _ => id, nofun⟩
  | cons k rest ih =>
    have hrest := ih (fun j hj => hstaged j (List.mem_cons_of_mem _ hj)) (c.upload staging device k)
    have hk := hstaged k List.mem_cons_self
    constructor
    · intro cell hcell
      refine hrest.1 cell ?_
      rw [StreamCall.upload]
      split
      · exact hk cell ‹_›
      · exact hcell
    · intro j hj cell hcell
      rcases List.mem_cons.mp hj with rfl | hlater
      · refine hrest.1 cell ?_
        rw [StreamCall.upload, if_pos hcell]
        exact hk cell hcell
      · exact hrest.2 j hlater cell hcell

namespace Invariant

/-- The call ends with an error. -/
theorem fail (h : Invariant c rowCells initial s) (hentered : s.entered = true)
    (hjoined : s.joined = true) (device : Memory Nat) {inFlight : List Nat}
    (hflight : ∀ k ∈ inFlight, k ∈ s.inFlight) (backendFailed : Bool) {ending : StreamEnd}
    (hending : ending ≠ .success) :
    Invariant c rowCells initial
      { s with
        device := device, inFlight := inFlight, backendFailed := backendFailed
        ended := some ending } := by
  refine ⟨⟨h.placed.ids, h.placed.ranges, h.placed.next_le, h.placed.finished, h.placed.decided⟩,
    ⟨h.counted.remaining, h.counted.submits⟩, h.staged,
    ⟨fun k hk => h.delivered.flight k (hflight k hk), fun hwell => ?_, fun hsuccess => ?_, nofun,
      fun hidle => ?_, h.delivered.held, fun _ => hjoined⟩⟩
  · rcases hwell with hnone | hsuccess
    · cases hnone
    · exact absurd (Option.some.inj hsuccess) hending
  · exact absurd (Option.some.inj hsuccess) hending
  · have hidle' : s.entered = false := hidle
    rw [hentered] at hidle'
    cases hidle'

/-- The call ends well. -/
theorem succeed (h : Invariant c rowCells initial s) (hentered : s.entered = true)
    (hended : s.ended = none) (hstopped : ∀ w ∈ s.workers, w.phase = .stopped)
    (hfailed : s.failed = false) {device : Memory Nat} {inFlight : List Nat}
    (hflight : ∀ k ∈ inFlight, k ∈ s.inFlight) (hdrain : c.drain = true → inFlight = [])
    (harrived : ∀ k ∈ s.submitted, k ∈ inFlight ∨
      ∀ cell, c.holds k cell = true → device cell = c.reference initial cell) :
    Invariant c rowCells initial
      { s with
        device := device, inFlight := inFlight, backendFailed := false
        ended := some .success } := by
  refine ⟨⟨h.placed.ids, h.placed.ranges, h.placed.next_le, h.placed.finished, h.placed.decided⟩,
    ⟨h.counted.remaining, h.counted.submits⟩, h.staged,
    ⟨fun k hk => h.delivered.flight k (hflight k hk), fun _ _ => harrived,
      fun _ => ⟨⟨(h.delivered.live hended).2 hentered, hstopped⟩, hfailed, rfl, hdrain⟩, nofun,
      fun hidle => ?_, h.delivered.held, fun _ => ?_⟩⟩
  · have hidle' : s.entered = false := hidle
    rw [hentered] at hidle'
    cases hidle'
  · rw [StreamState.joined, List.all_eq_true]
    intro w hw
    simp [hstopped w hw]

/-- The call ends after the barrier. -/
theorem settle (h : Invariant c rowCells initial s) (hrowed : c.Rowed rowCells)
    (hentered : s.entered = true) (hended : s.ended = none) (hjoined : s.joined = true)
    (answer : DrainAnswer) : Invariant c rowCells initial (c.settle s answer) := by
  obtain ⟨hopen, hne⟩ := h.delivered.live hended
  have hsame : ∀ k ∈ s.inFlight, k ∈ s.inFlight := fun _ => id
  have hnone : ∀ k ∈ ([] : List Nat), k ∈ s.inFlight := fun k hk =>
    absurd hk List.not_mem_nil
  unfold StreamCall.settle
  split
  · exact h.fail hentered hjoined s.device hsame s.backendFailed (by simp)
  rename_i hthrown
  have hstopped : ∀ w ∈ s.workers, w.phase = .stopped := by
    intro w hw
    rw [StreamState.joined, List.all_eq_true] at hjoined
    have hend := hjoined w hw
    have hnot : w.phase ≠ .thrown := fun hphase =>
      hthrown (List.any_eq_true.mpr ⟨w, hw, by simp [hphase]⟩)
    simpa [hnot] using hend
  split
  · unfold StreamCall.settleQueue
    split
    · refine h.fail hentered hjoined _ hnone _ ?_
      cases s.error <;> simp
    · refine h.fail hentered hjoined _ hsame _ ?_
      cases s.error <;> simp
  rename_i hgood
  simp only [Bool.or_eq_true, not_or, Bool.not_eq_true] at hgood
  obtain ⟨hfailed, hbackend⟩ := hgood
  split
  · rename_i hdrain
    have hwell := h.succeed hentered hended hstopped hfailed hsame
      (fun htrue => by rw [hdrain] at htrue; cases htrue)
      (h.delivered.arrived (.inl hended) hbackend)
    rw [← hbackend] at hwell
    exact hwell
  · unfold StreamCall.settleQueue
    split
    · cases hfailing : answer.failing with
      | true => exact h.fail hentered hjoined _ hnone _ (by simp)
      | false =>
        simp only [hbackend, Bool.or_self, Bool.false_eq_true, if_false]
        refine h.succeed hentered hended hstopped hfailed hnone (fun _ => rfl) fun k hk => .inr ?_
        obtain ⟨hkept, hcopied⟩ := upload_all c (c.reference initial)
          (fun k hk cell hcell => h.staged_of_submitted hrowed hopen
            (h.delivered.flight k hk) hcell) s.device
        intro cell hcell
        rcases h.delivered.arrived (.inl hended) hbackend k hk with hflying | harrived
        · exact hcopied k hflying cell hcell
        · exact hkept cell (harrived cell hcell)
    · exact h.fail hentered hjoined _ hsame true (by simp)

/-- The staging is given back. -/
theorem release (h : Invariant c rowCells initial s) (hended : s.ended ≠ none)
    (leftover : Memory Nat) : Invariant c rowCells initial (c.release s leftover) := by
  unfold StreamCall.release
  split
  · exact h
  · rename_i hretains
    exact ⟨⟨h.placed.ids, h.placed.ranges, h.placed.next_le, h.placed.finished, h.placed.decided⟩,
      ⟨h.counted.remaining, h.counted.submits⟩, nofun,
      ⟨h.delivered.flight, h.delivered.arrived, h.delivered.success,
        fun hnone => absurd hnone hended,
        fun hidle => absurd (h.delivered.idle hidle).2.2 hended,
        fun _ => by simpa using hretains, h.delivered.joined⟩⟩

/-- A worker at the head of its loop. -/
theorem scan (h : Invariant c rowCells initial s) (hrowed : c.Rowed rowCells) (hw : w ∈ s.workers)
    (hphase : w.phase = .scanning) {aligned : Bool} {partialWrites : List CellWrite}
    (hstep : c.scan s w aligned partialWrites = some t) : Invariant c rowCells initial t := by
  unfold StreamCall.scan at hstep
  split at hstep
  · rename_i hfailed
    cases hstep
    exact h.halt hw (.inl hphase) (.inl rfl) fun hfalse => by rw [hfailed] at hfalse; cases hfalse
  split at hstep
  · rename_i hnone
    cases hstep
    refine h.halt hw (.inl hphase) (.inl rfl) fun hfalse => ⟨hfalse, fun _ => ?_⟩
    have := h.placed.next_le w hw
    have := List.getElem?_eq_none_iff.mp hnone
    omega
  rename_i chunk hk
  have hchunk := List.mem_of_getElem? hk
  split at hstep
  · rename_i hempty
    cases hstep
    exact h.skip hw hphase hk hempty
  rename_i hshare
  rw [not_le] at hshare
  dsimp only at hstep
  split at hstep
  · rename_i writes hwrites
    cases hstep
    obtain ⟨hcells, hgives⟩ := hrowed.written chunk hchunk w.range hshare aligned writes hwrites
    refine h.begin hw hphase hk hshare (fun write hwrite => hrowed.inRows_of_window
      (hcells write hwrite)) fun _ => ⟨fun cell hcell => ?_, aligned, writes, hwrites⟩
    rw [inRows_iff hrowed.pos] at hcell
    rw [hgives initial (cell - (chunk.share w.range).1 * rowCells) (by omega)
      (by rw [sub_mul]; omega), sub_add_cancel]
  · split at hstep
    · rename_i hinside
      cases hstep
      rw [(hrowed.window chunk hchunk w.range hshare).2] at hinside
      exact h.begin hw hphase hk hshare (fun write hwrite => hrowed.inRows_of_window
        (hinside write hwrite)) nofun
    · cases hstep
  · cases hstep

theorem advance (h : Invariant c rowCells initial s) (hrowed : c.Rowed rowCells)
    (hw : w ∈ s.workers) {aligned : Bool} {partialWrites : List CellWrite}
    (hstep : c.advance s w aligned partialWrites = some t) : Invariant c rowCells initial t := by
  unfold StreamCall.advance at hstep
  split at hstep
  · exact h.scan hrowed hw ‹_› hstep
  · exact h.write hrowed hw ‹_› hstep
  · cases hstep
    exact h.finish hw ‹_›
  all_goals cases hstep

theorem throws (h : Invariant c rowCells initial s) (hw : w ∈ s.workers)
    (hstep : StreamCall.throws s w = some t) : Invariant c rowCells initial t := by
  unfold StreamCall.throws at hstep
  split at hstep
  · cases hstep
    exact h.halt hw (.inl ‹_›) (.inr rfl) fun hfalse => ⟨hfalse, nofun⟩
  · cases hstep
    exact h.halt hw (.inr ⟨_, _, ‹_›⟩) (.inr rfl) fun hfalse => ⟨hfalse, nofun⟩
  all_goals cases hstep

theorem step (h : Invariant c rowCells initial s) (hrowed : c.Rowed rowCells) {a : Action}
    (hstep : Streaming.step c s a = some t) : Invariant c rowCells initial t := by
  have hat : ∀ {id : Nat} {worker : Worker}, s.workerAt id = some worker → worker ∈ s.workers :=
    fun hfound => List.mem_of_find?_eq_some hfound
  cases a with
  | enter queues allocated =>
    simp only [Streaming.step] at hstep
    split at hstep
    · cases hstep
    · cases hstep
      exact h.enter hrowed (by simpa using ‹¬ s.entered = true›) queues allocated
  | advance w aligned partialWrites =>
    simp only [Streaming.step] at hstep
    split at hstep
    · cases hstep
    · exact h.advance hrowed (hat ‹_›) hstep
  | throws w =>
    simp only [Streaming.step] at hstep
    split at hstep
    · cases hstep
    · exact h.throws (hat ‹_›) hstep
  | submit w accepted failing =>
    simp only [Streaming.step] at hstep
    split at hstep
    · cases hstep
    · exact h.submit (hat ‹_›) hstep
  | complete => exact h.complete hrowed hstep
  | settle answer =>
    simp only [Streaming.step] at hstep
    split at hstep
    · rename_i hguard
      cases hstep
      simp only [Bool.and_eq_true, Option.isNone_iff_eq_none] at hguard
      exact h.settle hrowed hguard.1.1 hguard.1.2 hguard.2 answer
    · cases hstep
  | release leftover =>
    simp only [Streaming.step] at hstep
    split at hstep
    · rename_i hguard
      cases hstep
      simp only [Bool.and_eq_true, Option.isSome_iff_ne_none] at hguard
      exact h.release hguard.1.2 leftover
    · cases hstep

theorem of_reachable (hrowed : c.Rowed rowCells) {device : Memory Nat}
    (h : (system c initial device).Reachable s) : Invariant c rowCells initial s :=
  h.invariant
    (fun s hs => by rw [show s = .start initial device from hs]; exact start c initial device)
    fun _ _ _ hs hstep => hs.step hrowed hstep

end Invariant

end SymReloc.Streaming
