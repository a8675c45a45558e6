import Mathlib.Data.List.Pairwise
import SymReloc.Dispatch.StreamedRows

/-!
# What a streamed upload keeps

Four things hold in every run of a streamed upload: where its workers are
(`Placed`), what they have not counted yet (`Counted`), what is in the staging
(`StreamState.Staged`) and what has come to the device (`Delivered`).
-/

namespace SymReloc.Streaming

open Outcome Writes Ledger

variable {c : StreamCall} {rowCells : Int} {initial : Memory Nat} {s t : StreamState}
    {w w' : Worker}

/-! ### Cells of rows -/

/-- The cell lies in the rows. -/
def InRows (rowCells : Int) (rows : Int × Int) (cell : Int) : Prop :=
  rows.1 ≤ cell / rowCells ∧ cell / rowCells < rows.2

theorem inRows_iff (hpos : 0 < rowCells) {rows : Int × Int} {cell : Int} :
    InRows rowCells rows cell ↔ rows.1 * rowCells ≤ cell ∧ cell < rows.2 * rowCells := by
  rw [InRows, Int.le_ediv_iff_mul_le hpos, Int.ediv_lt_iff_lt_mul hpos]

theorem StreamCall.rows_eq {k : Nat} {chunk : Chunk} (hk : c.schedule.chunks[k]? = some chunk)
    (range : Int × Int) :
    c.rows k range = max 0 ((chunk.share range).2 - (chunk.share range).1) := by
  rw [StreamCall.rows, hk]

namespace StreamCall.Rowed

variable (h : c.Rowed rowCells) {k : Nat} {chunk : Chunk} {range : Int × Int} {cell : Int}
include h

theorem holds_iff (hk : c.schedule.chunks[k]? = some chunk) :
    c.holds k cell = true ↔ InRows rowCells (chunk.validBegin, chunk.validEnd) cell := by
  rw [h.holds k chunk cell hk, inRows_iff h.pos]

/-- A cell of a chunk lies in the share of one of the ranges. -/
theorem exists_share (hk : c.schedule.chunks[k]? = some chunk)
    (hcell : InRows rowCells (chunk.validBegin, chunk.validEnd) cell) :
    ∃ range ∈ c.ranges, InRows rowCells (chunk.share range) cell := by
  obtain ⟨hbegin, -, hend⟩ := h.chunks chunk (List.mem_of_getElem? hk)
  obtain ⟨hlow, hhigh⟩ := hcell
  obtain ⟨range, hrange, hin⟩ := c.divided.exists_mem (i := cell / rowCells)
    ⟨by simp only at hlow; omega, by simp only at hhigh; omega⟩
  refine ⟨range, hrange, ?_⟩
  simp only [InRows, Chunk.share] at *
  omega

theorem origin_eq (hk : c.schedule.chunks[k]? = some chunk)
    (hshare : (chunk.share range).1 < (chunk.share range).2) :
    (c.schedule.shareWindow chunk range).byteOffset / c.wire.elementSize =
      (chunk.share range).1 * rowCells :=
  (h.window chunk (List.mem_of_getElem? hk) range hshare).1

/-- A cell of a window, in the buffer. -/
theorem inRows_of_window
    (hcell : 0 ≤ cell ∧ cell < ((chunk.share range).2 - (chunk.share range).1) * rowCells) :
    InRows rowCells (chunk.share range) (cell + (chunk.share range).1 * rowCells) := by
  rw [inRows_iff h.pos]
  rw [sub_mul] at hcell
  omega

end StreamCall.Rowed

/-! ### Workers -/

/-- The rows of a chunk that the worker has not counted. -/
def Worker.owes (c : StreamCall) (k : Nat) (w : Worker) : Nat :=
  if w.next ≤ k then (c.rows k w.range).toNat else 0

/-- The worker is about to enqueue the copy. -/
def Worker.pending (k : Nat) (w : Worker) : Nat := if w.phase = .submitting k then 1 else 0

/-- The worker is between two windows. -/
def WorkerPhase.between : WorkerPhase → Bool
  | .scanning | .submitting _ => true
  | .staging _ _ | .stopped | .thrown => false

/-- What a worker has written.  What it still writes of a window that does not fail gives
    the window's cells. -/
structure Worker.Staged (c : StreamCall) (rowCells : Int) (initial staging : Memory Nat)
    (w : Worker) : Prop where
  counted : ∀ (k : Nat) (chunk : Chunk), c.schedule.chunks[k]? = some chunk → k < w.next →
    ∀ cell, InRows rowCells (chunk.share w.range) cell → staging cell = c.reference initial cell
  untouched : ∀ (k : Nat) (chunk : Chunk), c.schedule.chunks[k]? = some chunk →
    (w.next < k ∨ w.next = k ∧ w.phase.between = true) →
    ∀ cell, InRows rowCells (chunk.share w.range) cell → staging cell = initial cell
  writing : ∀ writes failure, w.phase = .staging writes failure →
    ∃ chunk, c.schedule.chunks[w.next]? = some chunk ∧
      (chunk.share w.range).1 < (chunk.share w.range).2 ∧
      (∀ write ∈ writes, InRows rowCells (chunk.share w.range)
        (write.cell + (chunk.share w.range).1 * rowCells)) ∧
      (failure = none → ∀ cell, InRows rowCells (chunk.share w.range) cell →
        run writes (sliced staging ((chunk.share w.range).1 * rowCells))
          (cell - (chunk.share w.range).1 * rowCells) = c.reference initial cell)

/-- The worker's windows before `next`, and the one that it writes, could be written. -/
def Worker.Decided (c : StreamCall) (w : Worker) : Prop :=
  ∀ (k : Nat) (chunk : Chunk), c.schedule.chunks[k]? = some chunk →
    (k < w.next ∨ k = w.next ∧ ∃ writes, w.phase = .staging writes none) →
    (chunk.share w.range).1 < (chunk.share w.range).2 →
    ∃ aligned writes, chunkWrites c.program 0 c.boundary (c.schedule.shareWindow chunk w.range)
      aligned c.source = .ok writes

/-! ### States -/

/-- Where the workers of a call are. -/
structure Placed (c : StreamCall) (s : StreamState) : Prop where
  ids : (s.workers.map Worker.id).Nodup
  ranges : s.workers ≠ [] → s.workers.map Worker.range = c.ranges
  next_le : ∀ w ∈ s.workers, w.next ≤ c.schedule.chunks.length
  finished : s.failed = false → ∀ w ∈ s.workers, w.phase = .stopped →
    w.next = c.schedule.chunks.length
  decided : ∀ w ∈ s.workers, w.Decided c

/-- A chunk's count is that of the rows that the workers have not counted, and its copy is
    enqueued, or about to be, when there are none. -/
structure Counted (c : StreamCall) (s : StreamState) : Prop where
  remaining : ∀ k, s.remaining k = (total (Worker.owes c k) s.workers : Int)
  submits : ∀ k, s.submitted.count k + total (Worker.pending k) s.workers =
    if k < c.schedule.chunks.length ∧ s.workers ≠ [] ∧ s.remaining k = 0 then 1 else 0

def StreamState.Staged (c : StreamCall) (rowCells : Int) (initial : Memory Nat)
    (s : StreamState) : Prop :=
  s.released = false → ∀ w ∈ s.workers, w.Staged c rowCells initial s.staging

/-- The call goes on, or has ended well. -/
def StreamState.well (s : StreamState) : Prop := s.ended = none ∨ s.ended = some .success

/-- What has come to the device, and how a call ends. -/
structure Delivered (c : StreamCall) (initial : Memory Nat) (s : StreamState) : Prop where
  flight : ∀ k ∈ s.inFlight, k ∈ s.submitted
  arrived : s.well → s.backendFailed = false → ∀ k ∈ s.submitted, k ∈ s.inFlight ∨
    ∀ cell, c.holds k cell = true → s.device cell = c.reference initial cell
  success : s.ended = some .success → (s.workers ≠ [] ∧ ∀ w ∈ s.workers, w.phase = .stopped) ∧
    s.failed = false ∧ s.backendFailed = false ∧ (c.drain = true → s.inFlight = [])
  live : s.ended = none → s.released = false ∧ (s.entered = true → s.workers ≠ [])
  idle : s.entered = false → s.workers = [] ∧ s.staging = initial ∧ s.ended = none
  held : s.released = true → c.retains = false
  joined : s.ended ≠ none → s.joined = true

/-! ### Moving a worker -/

theorem of_mem_move {x : Worker} (h : x ∈ (StreamCall.move s w').workers) :
    x = w' ∨ (x ∈ s.workers ∧ x.id ≠ w'.id) := by
  obtain ⟨d, hd, heq⟩ := mem_amend.mp h
  split at heq
  · exact .inl heq.symm
  · exact .inr ⟨heq ▸ hd, heq ▸ ‹_›⟩

theorem move_ne_nil : (StreamCall.move s w').workers ≠ [] ↔ s.workers ≠ [] := by
  simp [StreamCall.move, amend]

theorem Placed.total_move (h : Placed c s) (w' : Worker) (hw : w ∈ s.workers)
    (hid : w'.id = w.id) (ht : t.workers = (StreamCall.move s w').workers) (charge : Worker → Nat) :
    total charge t.workers + charge w = total charge s.workers + charge w' := by
  rw [ht]
  exact total_amend h.ids hw hid.symm

/-- The worker moves on; `t` has the workers of the move. -/
theorem Placed.move (h : Placed c s) (w' : Worker) (hw : w ∈ s.workers) (hid : w'.id = w.id)
    (hrange : w'.range = w.range) (hnext : w'.next ≤ c.schedule.chunks.length)
    (hdecided : w'.Decided c) (ht : t.workers = (StreamCall.move s w').workers)
    (hfailed : t.failed = false → s.failed = false ∧
      (w'.phase = .stopped → w'.next = c.schedule.chunks.length)) : Placed c t := by
  have hone : ∀ e ∈ s.workers, e.id = w'.id → e = w := fun e he heq =>
    eq_of_number_eq h.ids he hw (heq.trans hid)
  constructor
  · rw [ht, StreamCall.move, map_amend_of_eq fun _ _ heq => heq.symm]
    exact h.ids
  · intro hne
    rw [ht] at hne ⊢
    rw [StreamCall.move, map_amend_of_eq fun e he heq => by rw [hone e he heq, hrange]]
    exact h.ranges (move_ne_nil.mp hne)
  · intro x hx
    rcases of_mem_move (ht ▸ hx) with rfl | ⟨hold, -⟩
    · exact hnext
    · exact h.next_le x hold
  · intro hfalse x hx hstopped
    obtain ⟨hfalse', hend⟩ := hfailed hfalse
    rcases of_mem_move (ht ▸ hx) with rfl | ⟨hold, -⟩
    · exact hend hstopped
    · exact h.finished hfalse' x hold hstopped
  · intro x hx
    rcases of_mem_move (ht ▸ hx) with rfl | ⟨hold, -⟩
    · exact hdecided
    · exact h.decided x hold

/-- The worker moves on and counts nothing. -/
theorem Counted.move (h : Counted c s) (w' : Worker) (hplaced : Placed c s) (hw : w ∈ s.workers)
    (hid : w'.id = w.id) (howes : ∀ k, w'.owes c k = w.owes c k)
    (hpending : ∀ k, w'.pending k = w.pending k)
    (ht : t.workers = (StreamCall.move s w').workers) (hremaining : t.remaining = s.remaining)
    (hsubmitted : t.submitted = s.submitted) : Counted c t := by
  have htotal := fun charge => hplaced.total_move w' hw hid ht charge
  constructor
  · intro k
    have hk := htotal (Worker.owes c k)
    rw [hremaining, h.remaining k]
    have := howes k
    omega
  · intro k
    have hk := htotal (Worker.pending k)
    have hold := h.submits k
    rw [hpending k] at hk
    rw [hremaining, hsubmitted, show total (Worker.pending k) t.workers =
      total (Worker.pending k) s.workers by omega, ht]
    simp only [move_ne_nil]
    exact hold

/-- The count of a chunk of which a worker still has rows. -/
theorem Counted.rows_le (h : Counted c s) (hw : w ∈ s.workers) {k : Nat} (hk : w.next ≤ k) :
    c.rows k w.range ≤ s.remaining k := by
  have hle : w.owes c k ≤ total (Worker.owes c k) s.workers := charge_le_total hw
  rw [Worker.owes, if_pos hk] at hle
  rw [h.remaining k]
  omega

/-- The worker counts its rows, and the one that counts the last ones has a copy to
    enqueue. -/
theorem Counted.count (h : Counted c s) (w' : Worker) (hplaced : Placed c s) (hw : w ∈ s.workers)
    (hlt : w.next < c.schedule.chunks.length) (hpositive : 0 < c.rows w.next w.range)
    (hpending : ∀ k, w.pending k = 0) (hid : w'.id = w.id) (hrange : w'.range = w.range)
    (hnext : w'.next = w.next + 1)
    (hphase : w'.phase = if s.remaining w.next = c.rows w.next w.range then .submitting w.next
      else .scanning)
    (ht : t.workers = (StreamCall.move s w').workers)
    (hremaining : t.remaining = Function.update s.remaining w.next
      (s.remaining w.next - c.rows w.next w.range))
    (hsubmitted : t.submitted = s.submitted) : Counted c t := by
  have htotal := fun charge => hplaced.total_move w' hw hid ht charge
  constructor
  · intro k
    have hmove := htotal (Worker.owes c k)
    have hcount := h.remaining k
    simp only [Worker.owes, hnext, hrange] at hmove
    rw [hremaining]
    by_cases heq : k = w.next
    · subst heq
      rw [if_pos (Nat.le_refl _), if_neg (Nat.not_succ_le_self _)] at hmove
      rw [Function.update_self]
      omega
    · rw [Function.update_of_ne heq, hcount]
      simp only [show w.next + 1 ≤ k ↔ w.next ≤ k by omega] at hmove
      omega
  · intro k
    have hmove := htotal (Worker.pending k)
    have hsubmits := h.submits k
    have hge := h.rows_le hw (Nat.le_refl w.next)
    rw [hpending k] at hmove
    rw [hsubmitted, hremaining, ht]
    simp only [move_ne_nil, List.ne_nil_of_mem hw, ne_eq, not_false_eq_true, true_and]
      at hsubmits ⊢
    rw [← ht]
    by_cases heq : k = w.next
    · subst heq
      rw [if_neg (by omega)] at hsubmits
      rw [Function.update_self]
      by_cases hall : s.remaining w.next = c.rows w.next w.range
      · rw [if_pos hall] at hphase
        rw [if_pos ⟨hlt, by omega⟩]
        rw [Worker.pending, if_pos hphase] at hmove
        omega
      · rw [if_neg hall] at hphase
        rw [if_neg (by omega)]
        rw [Worker.pending, if_neg (by rw [hphase]; nofun)] at hmove
        omega
    · have hzero : w'.pending k = 0 := by
        refine if_neg ?_
        rw [hphase]
        split
        · intro hsame
          cases hsame
          exact heq rfl
        · nofun
      rw [Function.update_of_ne heq]
      omega

/-- A copy is enqueued. -/
theorem Counted.submit (h : Counted c s) (w' : Worker) (hplaced : Placed c s) (hw : w ∈ s.workers)
    {k : Nat} (hphase : w.phase = .submitting k) (hid : w'.id = w.id) (hrange : w'.range = w.range)
    (hnext : w'.next = w.next) (hphase' : w'.phase = .scanning)
    (ht : t.workers = (StreamCall.move s w').workers) (hremaining : t.remaining = s.remaining)
    (hsubmitted : t.submitted = s.submitted ++ [k]) : Counted c t := by
  have htotal := fun charge => hplaced.total_move w' hw hid ht charge
  constructor
  · intro j
    have hmove := htotal (Worker.owes c j)
    have hcount := h.remaining j
    simp only [Worker.owes, hnext, hrange] at hmove
    rw [hremaining]
    omega
  · intro j
    have hmove := htotal (Worker.pending j)
    have hsubmits := h.submits j
    have hzero : w'.pending j = 0 := if_neg (by rw [hphase']; nofun)
    rw [hsubmitted, hremaining, List.count_append, List.count_singleton, ht]
    simp only [move_ne_nil]
    rw [← ht, ← hsubmits]
    by_cases heq : k = j
    · rw [Worker.pending, if_pos (by rw [hphase, heq])] at hmove
      simp only [heq, beq_self_eq_true, if_true]
      omega
    · rw [Worker.pending, if_neg (by rw [hphase]; simpa using heq)] at hmove
      simp only [beq_iff_eq, heq, if_false]
      omega

/-- The worker moves on, and other workers' cells are as they were. -/
theorem StreamState.Staged.move (w' : Worker)
    (hown : t.released = false → w'.Staged c rowCells initial t.staging)
    (hothers : s.released = false → ∀ x ∈ s.workers, x.id ≠ w'.id →
      x.Staged c rowCells initial t.staging)
    (ht : t.workers = (StreamCall.move s w').workers) (hreleased : t.released = s.released) :
    t.Staged c rowCells initial := by
  intro hheld x hx
  rcases of_mem_move (ht ▸ hx) with rfl | ⟨hold, hne⟩
  · exact hown hheld
  · exact hothers (hreleased ▸ hheld) x hold hne

/-- A worker has come to its end when the call has. -/
theorem Delivered.going (h : Delivered c initial s) (hw : w ∈ s.workers)
    (hstopped : w.phase ≠ .stopped) (hthrown : w.phase ≠ .thrown) : s.ended = none := by
  by_contra hended
  have hjoined := h.joined hended
  rw [StreamState.joined, List.all_eq_true] at hjoined
  simpa [hstopped, hthrown] using hjoined w hw

/-- The worker moves on, and the device and the backend are as they were. -/
theorem Delivered.move (h : Delivered c initial s) (w' : Worker) (hw : w ∈ s.workers)
    (hended : s.ended = none)
    (ht : t.workers = (StreamCall.move s w').workers)
    (hsame : t.entered = s.entered ∧ t.device = s.device ∧ t.submitted = s.submitted ∧
      t.inFlight = s.inFlight ∧ t.backendFailed = s.backendFailed ∧ t.ended = s.ended ∧
      t.released = s.released) : Delivered c initial t := by
  obtain ⟨hentered, hdevice, hsubmitted, hflight, hbackend, hended', hreleased⟩ := hsame
  have hnone : t.ended = none := hended'.trans hended
  constructor
  · rw [hflight, hsubmitted]
    exact h.flight
  · rw [hbackend, hsubmitted, hflight, hdevice]
    exact fun _ => h.arrived (.inl hended)
  · intro hsuccess
    rw [hnone] at hsuccess
    cases hsuccess
  · rw [hentered, hreleased, ht, move_ne_nil]
    exact fun _ => h.live hended
  · exact fun hidle => absurd (h.idle (hentered ▸ hidle)).1 (List.ne_nil_of_mem hw)
  · rw [hreleased]
    exact h.held
  · exact fun hne => absurd hnone hne

/-! ### One turn of a worker -/

/-- What holds in every run. -/
structure Invariant (c : StreamCall) (rowCells : Int) (initial : Memory Nat) (s : StreamState) :
    Prop where
  placed : Placed c s
  counted : Counted c s
  staged : s.Staged c rowCells initial
  delivered : Delivered c initial s

namespace Worker.Staged

variable {staging staging' : Memory Nat}

/-- Cells outside the worker's range do not matter. -/
theorem frame (h : w.Staged c rowCells initial staging)
    (hsame : ∀ chunk ∈ c.schedule.chunks, ∀ cell, InRows rowCells (chunk.share w.range) cell →
      staging' cell = staging cell) : w.Staged c rowCells initial staging' := by
  constructor
  · intro k chunk hk hlt cell hcell
    rw [hsame chunk (List.mem_of_getElem? hk) cell hcell]
    exact h.counted k chunk hk hlt cell hcell
  · intro k chunk hk hplace cell hcell
    rw [hsame chunk (List.mem_of_getElem? hk) cell hcell]
    exact h.untouched k chunk hk hplace cell hcell
  · intro writes failure hphase
    obtain ⟨chunk, hk, hshare, hinside, hgives⟩ := h.writing writes failure hphase
    refine ⟨chunk, hk, hshare, hinside, fun hnone cell hcell => ?_⟩
    rw [← hgives hnone cell hcell, run_apply, run_apply, sliced, sliced, sub_add_cancel,
      hsame chunk (List.mem_of_getElem? hk) cell hcell]

/-- A worker that stops. -/
theorem stop (h : w.Staged c rowCells initial staging) {phase : WorkerPhase}
    (hphase : phase = .stopped ∨ phase = .thrown) :
    ({ w with phase } : Worker).Staged c rowCells initial staging := by
  refine ⟨h.counted, fun k chunk hk hplace => h.untouched k chunk hk (.inl ?_), ?_⟩
  · rcases hplace with hlt | ⟨-, hbetween⟩
    · exact hlt
    · rcases hphase with rfl | rfl <;> cases hbetween
  · intro writes failure hwriting
    rcases hphase with rfl | rfl <;> cases hwriting

end Worker.Staged

/-- A worker that stops has decided what it had. -/
theorem Worker.Decided.stop (h : w.Decided c) {phase : WorkerPhase}
    (hphase : ∀ writes, phase ≠ .staging writes none) :
    ({ w with phase } : Worker).Decided c := by
  intro k chunk hk hplace hshare
  rcases hplace with hlt | ⟨-, writes, hwriting⟩
  · exact h k chunk hk (.inl hlt) hshare
  · exact absurd hwriting (hphase writes)

theorem Worker.pending_eq_zero (h : ∀ k, w.phase ≠ .submitting k) (k : Nat) : w.pending k = 0 :=
  if_neg (h k)

namespace Invariant

theorem going (h : Invariant c rowCells initial s) (hw : w ∈ s.workers)
    (hturn : w.phase.between = true ∨ ∃ writes failure, w.phase = .staging writes failure) :
    s.ended = none := by
  refine h.delivered.going hw (fun hphase => ?_) fun hphase => ?_ <;>
    rcases hturn with hbetween | ⟨_, _, hwriting⟩ <;> simp_all [WorkerPhase.between]

/-- A worker stops, or an exception leaves it. -/
theorem halt (h : Invariant c rowCells initial s) (hw : w ∈ s.workers)
    (hturn : w.phase = .scanning ∨ ∃ writes failure, w.phase = .staging writes failure)
    {phase : WorkerPhase} (hphase : phase = .stopped ∨ phase = .thrown) {failed : Bool}
    {error : Option ExecutionError}
    (hfailed : failed = false → s.failed = false ∧
      (phase = .stopped → w.next = c.schedule.chunks.length)) :
    Invariant c rowCells initial
      (StreamCall.move { s with error := error, failed := failed } { w with phase := phase }) := by
  have hended : s.ended = none := h.going hw (hturn.imp_left fun hscan => by rw [hscan]; rfl)
  have hpending : ∀ k, w.phase ≠ .submitting k := by
    intro k hsubmitting
    rcases hturn with hscan | ⟨_, _, hwriting⟩
    · rw [hscan] at hsubmitting
      cases hsubmitting
    · rw [hwriting] at hsubmitting
      cases hsubmitting
  refine ⟨h.placed.move { w with phase := phase } hw rfl rfl (h.placed.next_le w hw)
    ((h.placed.decided w hw).stop ?_) rfl
    hfailed, h.counted.move { w with phase := phase } h.placed hw rfl (fun _ => rfl)
      (fun k => ?_) rfl rfl rfl,
    StreamState.Staged.move { w with phase := phase } (fun hs => (h.staged hs w hw).stop hphase)
      (fun hs x hx _ => h.staged hs x hx) rfl rfl,
    h.delivered.move { w with phase := phase } hw hended rfl ⟨rfl, rfl, rfl, rfl, rfl, rfl, rfl⟩⟩
  · intro writes
    rcases hphase with rfl | rfl <;> nofun
  · rw [Worker.pending_eq_zero hpending, Worker.pending_eq_zero]
    intro k
    rcases hphase with rfl | rfl <;> nofun

/-- A chunk of which the worker has no row. -/
theorem skip (h : Invariant c rowCells initial s) (hw : w ∈ s.workers)
    (hphase : w.phase = .scanning) {chunk : Chunk} (hk : c.schedule.chunks[w.next]? = some chunk)
    (hshare : (chunk.share w.range).2 ≤ (chunk.share w.range).1) :
    Invariant c rowCells initial (StreamCall.move s { w with next := w.next + 1 }) := by
  have hended : s.ended = none := h.going hw (.inl (by rw [hphase]; rfl))
  have hlt := (List.getElem?_eq_some_iff.mp hk).1
  refine ⟨h.placed.move { w with next := w.next + 1 } hw rfl rfl hlt ?_ rfl fun hfalse =>
    ⟨hfalse, fun hstopped => ?_⟩,
    h.counted.move { w with next := w.next + 1 } h.placed hw rfl (fun k => ?_)
      (fun _ => rfl) rfl rfl rfl,
    StreamState.Staged.move { w with next := w.next + 1 } (fun hs => ?_)
      (fun hs x hx _ => h.staged hs x hx) rfl rfl,
    h.delivered.move { w with next := w.next + 1 } hw hended rfl ⟨rfl, rfl, rfl, rfl, rfl,
      rfl, rfl⟩⟩
  · intro k chunk' hk' hplace hshare'
    rcases hplace with hlt' | ⟨-, writes, hwriting⟩
    · rcases Nat.lt_succ_iff_lt_or_eq.mp hlt' with hold | heq
      · exact h.placed.decided w hw k chunk' hk' (.inl hold) hshare'
      · rw [heq, hk, Option.some.injEq] at hk'
        subst hk'
        exact absurd hshare' (by simp only; omega)
    · rw [hphase] at hwriting
      cases hwriting
  · rw [hphase] at hstopped
    cases hstopped
  · have hrows := StreamCall.rows_eq hk w.range
    by_cases heq : k = w.next
    · subst heq
      simp only [Worker.owes]
      rw [if_neg (by omega), if_pos (Nat.le_refl _)]
      omega
    · simp only [Worker.owes, show w.next + 1 ≤ k ↔ w.next ≤ k by omega]
  · have hold := h.staged hs w hw
    constructor
    · intro k chunk' hk' hlt' cell hcell
      rcases Nat.lt_succ_iff_lt_or_eq.mp hlt' with hlt | heq
      · exact hold.counted k chunk' hk' hlt cell hcell
      · rw [heq, hk, Option.some.injEq] at hk'
        subst hk'
        exact absurd (lt_of_le_of_lt hcell.1 hcell.2) (not_lt.mpr hshare)
    · intro k chunk' hk' hplace
      refine hold.untouched k chunk' hk' (.inl ?_)
      rcases hplace with hlt | ⟨heq, -⟩
      · exact Nat.lt_of_succ_lt hlt
      · exact Nat.lt_of_succ_le (Nat.le_of_eq heq)
    · intro writes failure hwriting
      rw [hphase] at hwriting
      cases hwriting

/-- A window begins: nothing of it is written yet. -/
theorem begin (h : Invariant c rowCells initial s) (hw : w ∈ s.workers)
    (hphase : w.phase = .scanning) {chunk : Chunk} (hk : c.schedule.chunks[w.next]? = some chunk)
    (hshare : (chunk.share w.range).1 < (chunk.share w.range).2) {writes : List CellWrite}
    {failure : Option ExecutionError}
    (hinside : ∀ write ∈ writes, InRows rowCells (chunk.share w.range)
      (write.cell + (chunk.share w.range).1 * rowCells))
    (hgives : failure = none → (∀ cell, InRows rowCells (chunk.share w.range) cell →
        run writes (sliced initial ((chunk.share w.range).1 * rowCells))
          (cell - (chunk.share w.range).1 * rowCells) = c.reference initial cell) ∧
      ∃ aligned writes, chunkWrites c.program 0 c.boundary (c.schedule.shareWindow chunk w.range)
        aligned c.source = .ok writes) :
    Invariant c rowCells initial
      (StreamCall.move s { w with phase := .staging writes failure }) := by
  have hended : s.ended = none := h.going hw (.inl (by rw [hphase]; rfl))
  refine ⟨h.placed.move { w with phase := .staging writes failure } hw rfl rfl
      (h.placed.next_le w hw) ?_ rfl fun hfalse => ⟨hfalse, nofun⟩,
    h.counted.move { w with phase := .staging writes failure } h.placed hw rfl (fun _ => rfl)
      (fun k => ?_) rfl rfl rfl,
    StreamState.Staged.move { w with phase := .staging writes failure } (fun hs => ?_)
      (fun hs x hx _ => h.staged hs x hx) rfl rfl,
    h.delivered.move { w with phase := .staging writes failure } hw hended rfl
      ⟨rfl, rfl, rfl, rfl, rfl, rfl, rfl⟩⟩
  · intro k chunk' hk' hplace hshare'
    rcases hplace with hlt | ⟨heq, _, hwriting⟩
    · exact h.placed.decided w hw k chunk' hk' (.inl hlt) hshare'
    · cases hwriting
      rw [heq, hk, Option.some.injEq] at hk'
      subst hk'
      exact (hgives rfl).2
  · simp [Worker.pending, hphase]
  · have hold := h.staged hs w hw
    refine ⟨hold.counted, fun k chunk' hk' hplace => hold.untouched k chunk' hk' (.inl ?_), ?_⟩
    · rcases hplace with hlt | ⟨-, hbetween⟩
      · exact hlt
      · cases hbetween
    · intro writes' failure' hwriting
      cases hwriting
      refine ⟨chunk, hk, hshare, hinside, fun hnone cell hcell => ?_⟩
      rw [← (hgives hnone).1 cell hcell, run_apply, run_apply, sliced, sliced, sub_add_cancel]
      exact congrArg _ (hold.untouched w.next chunk hk
        (.inr ⟨rfl, by rw [hphase]; rfl⟩) cell hcell)

end Invariant

/-- Workers have their own rows. -/
theorem Placed.apart (h : Placed c s) {x : Worker} (hw : w ∈ s.workers) (hx : x ∈ s.workers)
    (hne : x.id ≠ w.id) : x.range.2 ≤ w.range.1 ∨ w.range.2 ≤ x.range.1 := by
  have hpair := c.divided.pairwise
  rw [← h.ranges (List.ne_nil_of_mem hw), List.pairwise_map] at hpair
  have hsymm : Std.Symm fun x w : Worker =>
      x.range.2 ≤ w.range.1 ∨ w.range.2 ≤ x.range.1 := ⟨fun _ _ => Or.symm⟩
  have heither : s.workers.Pairwise fun x w =>
      x.range.2 ≤ w.range.1 ∨ w.range.2 ≤ x.range.1 := hpair.imp Or.inl
  exact heither.forall hx hw fun heq => hne (by rw [heq])

/-- Two chunks have their own rows. -/
theorem StreamCall.Rowed.share_apart (h : c.Rowed rowCells) {j k : Nat} {chunk other : Chunk}
    (hj : c.schedule.chunks[j]? = some chunk) (hk : c.schedule.chunks[k]? = some other)
    (hne : j ≠ k) {range range' : Int × Int} {cell cell' : Int}
    (hcell : InRows rowCells (chunk.share range) cell)
    (hcell' : InRows rowCells (other.share range') cell') : cell ≠ cell' := by
  intro heq
  subst heq
  unfold InRows Chunk.share at hcell hcell'
  rcases Nat.lt_or_gt_of_ne hne with hlt | hgt
  · have := h.apart j k chunk other hj hk hlt
    omega
  · have := h.apart k j other chunk hk hj hgt
    omega

namespace Invariant

/-- A cell of a window. -/
theorem write (h : Invariant c rowCells initial s) (hrowed : c.Rowed rowCells) (hw : w ∈ s.workers)
    {entry : CellWrite} {rest : List CellWrite} {failure : Option ExecutionError}
    (hphase : w.phase = .staging (entry :: rest) failure)
    (hstep : c.write s w entry rest failure = some t) : Invariant c rowCells initial t := by
  have hended : s.ended = none := h.going hw (.inr ⟨_, _, hphase⟩)
  unfold StreamCall.write at hstep
  cases hk : c.schedule.chunks[w.next]? with
  | none => simp [hk] at hstep
  | some chunk =>
  simp only [hk, Option.some.injEq] at hstep
  subst hstep
  refine ⟨h.placed.move { w with phase := .staging rest failure } hw rfl rfl
      (h.placed.next_le w hw) ?_ rfl fun hfalse => ⟨hfalse, nofun⟩,
    h.counted.move { w with phase := .staging rest failure } h.placed hw rfl (fun _ => rfl)
      (fun k => ?_) rfl rfl rfl,
    StreamState.Staged.move { w with phase := .staging rest failure } (fun hs => ?_)
      (fun hs x hx hne => ?_) rfl rfl,
    h.delivered.move { w with phase := .staging rest failure } hw hended rfl
      ⟨rfl, rfl, rfl, rfl, rfl, rfl, rfl⟩⟩
  · intro k chunk' hk' hplace hshare'
    rcases hplace with hlt | ⟨heq, _, hwriting⟩
    · exact h.placed.decided w hw k chunk' hk' (.inl hlt) hshare'
    · cases hwriting
      exact h.placed.decided w hw k chunk' hk' (.inr ⟨heq, _, hphase⟩) hshare'
  · simp [Worker.pending, hphase]
  · have hold := h.staged hs w hw
    obtain ⟨chunk', hk', hshare, hinside, hgives⟩ := hold.writing _ _ hphase
    rw [hk, Option.some.injEq] at hk'
    subst hk'
    have hentry := hinside entry List.mem_cons_self
    rw [hrowed.origin_eq hk hshare]
    refine ⟨fun k other hother hlt cell hcell => ?_, fun k other hother hplace cell hcell => ?_, ?_⟩
    · show Function.update _ _ _ cell = _
      rw [Function.update_of_ne (hrowed.share_apart hother hk (Nat.ne_of_lt hlt) hcell hentry)]
      exact hold.counted k other hother hlt cell hcell
    · have hlt : w.next < k := by
        rcases hplace with hlt | ⟨-, hbetween⟩
        · exact hlt
        · cases hbetween
      show Function.update _ _ _ cell = _
      rw [Function.update_of_ne (hrowed.share_apart hother hk (Nat.ne_of_gt hlt) hcell hentry)]
      exact hold.untouched k other hother (.inl hlt) cell hcell
    · intro writes' failure' hwriting
      cases hwriting
      refine ⟨chunk, hk, hshare, fun write hwrite => hinside write (List.mem_cons_of_mem _ hwrite),
        fun hnone cell hcell => ?_⟩
      rw [← hgives hnone cell hcell]
      have hsliced : sliced (Function.update s.staging
            (entry.cell + (chunk.share w.range).1 * rowCells) entry.value)
            ((chunk.share w.range).1 * rowCells) =
          Function.update (sliced s.staging ((chunk.share w.range).1 * rowCells)) entry.cell
            entry.value := by
        funext cell
        by_cases heq : cell = entry.cell
        · subst heq
          simp [sliced]
        · have hne : cell + (chunk.share w.range).1 * rowCells ≠
              entry.cell + (chunk.share w.range).1 * rowCells := by omega
          simp only [sliced, Function.update_of_ne heq, Function.update_of_ne hne]
      exact congrArg (fun memory => run rest memory _) hsliced
  · have hold := h.staged hs w hw
    obtain ⟨chunk', hk', hshare, hinside, -⟩ := hold.writing _ _ hphase
    rw [hk, Option.some.injEq] at hk'
    subst hk'
    have hentry := hinside entry List.mem_cons_self
    have hapart := h.placed.apart hw hx hne
    refine (h.staged hs x hx).frame fun other _ cell hcell => ?_
    show Function.update _ _ _ cell = _
    rw [hrowed.origin_eq hk hshare, Function.update_of_ne]
    intro heq
    subst heq
    unfold InRows Chunk.share at hcell hentry
    simp only at hcell hentry
    omega

/-- Where a worker goes that has counted its rows. -/
theorem finish_eq (c : StreamCall) (s : StreamState) (w : Worker) :
    c.finish s w none = StreamCall.move
      { s with remaining := Function.update s.remaining w.next
                (s.remaining w.next - c.rows w.next w.range) }
      { w with
        next := w.next + 1
        phase := if s.remaining w.next = c.rows w.next w.range then .submitting w.next
          else .scanning } := by
  unfold StreamCall.finish
  by_cases heq : s.remaining w.next = c.rows w.next w.range
  · simp only [heq, if_true]
  · simp only [heq, if_false]

/-- The rows of a window are written, and are counted. -/
theorem finish (h : Invariant c rowCells initial s) (hw : w ∈ s.workers)
    {failure : Option ExecutionError} (hphase : w.phase = .staging [] failure) :
    Invariant c rowCells initial (c.finish s w failure) := by
  have hended : s.ended = none := h.going hw (.inr ⟨_, _, hphase⟩)
  have hold := h.staged (h.delivered.live hended).1 w hw
  obtain ⟨chunk, hk, hshare, -, hgives⟩ := hold.writing _ _ hphase
  cases failure with
  | some reason =>
    exact h.halt hw (.inr ⟨_, _, hphase⟩) (.inl rfl) nofun
  | none =>
  have hlt := (List.getElem?_eq_some_iff.mp hk).1
  have hrows := StreamCall.rows_eq hk w.range
  have hpositive : 0 < c.rows w.next w.range := by omega
  rw [finish_eq]
  generalize hnext : (if s.remaining w.next = c.rows w.next w.range then
    WorkerPhase.submitting w.next else WorkerPhase.scanning) = phase
  have hphases : phase = .submitting w.next ∨ phase = .scanning := by
    rw [← hnext]
    split
    · exact .inl rfl
    · exact .inr rfl
  refine ⟨h.placed.move { w with next := w.next + 1, phase } hw rfl rfl hlt ?_ rfl
      fun hfalse => ⟨hfalse, fun hstopped => ?_⟩,
    h.counted.count { w with next := w.next + 1, phase } h.placed hw hlt hpositive
      (fun k => by simp [Worker.pending, hphase]) rfl rfl rfl hnext.symm rfl rfl rfl,
    StreamState.Staged.move { w with next := w.next + 1, phase } (fun _ => ?_)
      (fun hs x hx _ => h.staged hs x hx) rfl rfl,
    h.delivered.move { w with next := w.next + 1, phase } hw hended rfl
      ⟨rfl, rfl, rfl, rfl, rfl, rfl, rfl⟩⟩
  · intro k chunk' hk' hplace hshare'
    refine h.placed.decided w hw k chunk' hk' ?_ hshare'
    rcases hplace with hlt' | ⟨-, writes, hwriting⟩
    · rcases Nat.lt_succ_iff_lt_or_eq.mp hlt' with hbefore | heq
      · exact .inl hbefore
      · exact .inr ⟨heq, _, hphase⟩
    · rcases hphases with rfl | rfl <;> cases hwriting
  · rcases hphases with rfl | rfl <;> cases hstopped
  · refine ⟨fun k other hother hlt' cell hcell => ?_, fun k other hother hplace => ?_, ?_⟩
    · rcases Nat.lt_succ_iff_lt_or_eq.mp hlt' with hbefore | heq
      · exact hold.counted k other hother hbefore cell hcell
      · rw [heq, hk, Option.some.injEq] at hother
        subst hother
        rw [← hgives rfl cell hcell, run_nil, sliced, sub_add_cancel]
        rfl
    · refine hold.untouched k other hother (.inl ?_)
      rcases hplace with hafter | ⟨heq, -⟩
      · exact Nat.lt_of_succ_lt hafter
      · exact Nat.lt_of_succ_le (Nat.le_of_eq heq)
    · intro writes failure hwriting
      rcases hphases with rfl | rfl <;> cases hwriting

/-- A worker enqueues the copy of a chunk. -/
theorem submit (h : Invariant c rowCells initial s) (hw : w ∈ s.workers) {accepted failing : Bool}
    (hstep : StreamCall.submit s w accepted failing = some t) : Invariant c rowCells initial t := by
  unfold StreamCall.submit at hstep
  split at hstep
  · rename_i k hphase
    have hended : s.ended = none := h.going hw (.inl (by rw [hphase]; rfl))
    cases hstep
    refine ⟨h.placed.move { w with phase := .scanning } hw rfl rfl (h.placed.next_le w hw)
        ((h.placed.decided w hw).stop nofun) rfl fun hfalse => ⟨hfalse, nofun⟩,
      h.counted.submit { w with phase := .scanning } h.placed hw hphase rfl rfl rfl rfl rfl rfl rfl,
      StreamState.Staged.move { w with phase := .scanning } (fun hs => ?_)
        (fun hs x hx _ => h.staged hs x hx) rfl rfl, ?_⟩
    · have hold := h.staged hs w hw
      refine ⟨hold.counted, fun j other hother hplace => hold.untouched j other hother ?_, nofun⟩
      exact hplace.imp_right fun hsame => ⟨hsame.1, by rw [hphase]; rfl⟩
    · have hgone : ∀ P : Prop, s.ended = some .success → P := fun P hsuccess => by
        rw [hended] at hsuccess
        cases hsuccess
      constructor
      · intro j hj
        rw [StreamCall.move] at hj ⊢
        refine List.mem_append.mpr ?_
        cases accepted with
        | true => exact (List.mem_append.mp hj).imp_left (h.delivered.flight j)
        | false => exact .inl (h.delivered.flight j hj)
      · intro _ hbackend j hj
        simp only [StreamCall.move, Bool.or_eq_false_iff, Bool.not_eq_false'] at hbackend hj ⊢
        obtain ⟨⟨hbackend, -⟩, rfl⟩ := hbackend
        rw [if_pos rfl]
        rcases List.mem_append.mp hj with hbefore | hnew
        · exact (h.delivered.arrived (.inl hended) hbackend j hbefore).imp_left
            fun hflight => List.mem_append_left _ hflight
        · exact .inl (List.mem_append_right _ hnew)
      · exact hgone _
      · exact fun _ => ⟨(h.delivered.live hended).1, fun hentered =>
          move_ne_nil.mpr ((h.delivered.live hended).2 hentered)⟩
      · exact fun hidle => absurd (h.delivered.idle hidle).1 (List.ne_nil_of_mem hw)
      · exact h.delivered.held
      · exact fun hne => absurd hended hne
  all_goals cases hstep

end Invariant

end SymReloc.Streaming
