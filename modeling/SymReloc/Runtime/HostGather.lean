import SymReloc.Dispatch.PrefoldRows
import SymReloc.Runtime.TransposeTiles

/-!
# The divided host gather

`executeH2DThreaded` and `forwardHostGather` with the row ranges they hand out and the threads
that take them.  A run is the caller's fill, and then the copies of every range, which the
threads make all at once and whose bytes may arrive in any order.
-/

namespace SymReloc.HostGather

open Outcome Writes

/-! ### Runs -/

/-- The caller's fill, and what is copied for each range; the caller takes the range `own`. -/
structure HostRun where
  fill : Nat × List ByteCopy
  runs : List (List ByteCopy)
  own : Nat
deriving DecidableEq, Repr

inductive Thread where
  | caller
  | worker (k : Nat)
deriving DecidableEq, Repr

namespace HostRun

/-- The thread that takes a range. -/
def thread (run : HostRun) (k : Nat) : Thread := if k = run.own then .caller else .worker k

/-- The thread writes the byte in one of its ranges. -/
def GatheredBy (run : HostRun) (thread : Thread) (d : Int) : Prop :=
  ∃ (k : Nat) (copies : List ByteCopy), run.runs[k]? = some copies ∧ run.thread k = thread ∧
    ∃ s, Moves copies d s

/-- The thread writes the byte, in the fill or after it. -/
def WrittenBy (run : HostRun) (thread : Thread) (d : Int) : Prop :=
  (thread = .caller ∧ ∃ s, Moves run.fill.2 d s) ∨ run.GatheredBy thread d

/-- A memory that the run may leave: the fill comes before every range. -/
def Leaves (run : HostRun) (source memory left : Memory UInt8) : Prop :=
  ∃ history, Interleaves (run.runs.map (ofCopies source)) history ∧
    left = Writes.run (history.map Prod.snd) (runCopies (pattern run.fill.1) run.fill.2 memory)

end HostRun

/-! ### The executors -/

section Code

variable {ε : Type}

def gatherRanges (bound : BoundPlan) (fill : Nat × List ByteCopy) (ranges : List (Int × Int))
    (own : Nat) : Outcome ε HostRun := do
  let runs ← mapEach ranges fun range => gatherChunk bound range.1 range.2
  pure { fill, runs, own }

/-- The threads to use; none asked for means those of the hardware. -/
def threadCount (threads hardware : Nat) : Nat :=
  let threads := if threads = 0 then hardware else threads
  if threads = 0 then 1 else threads

/-- The ranges of the workers from `w` on; the first empty one ends the loop. -/
def workerRanges (per outer : Int) : Nat → Int → Outcome ε (List (Int × Int))
  | 0, _ => .ok []
  | left + 1, w => do
      let first ← mul64 w per
      let next ← add64 first per
      if min next outer ≤ first then pure []
      else do
        let rest ← workerRanges per outer left (w + 1)
        pure ((first, min next outer) :: rest)

/-- `executeH2D`, as a run of one range. -/
def executeH2DAlone (bound : BoundPlan) : Outcome ε HostRun := do
  let fill ← fillDst bound
  let outer ← fetch bound.extents 0
  gatherRanges bound fill [(0, outer)] 0

def executeH2DThreaded (bound : BoundPlan) (threads hardware : Nat) : Outcome ε HostRun := do
  let outer ← fetch bound.extents 0
  let fill ← fillDst bound
  let span ← innerSpan bound.extents bound.dstStrides
  let stride ← fetch bound.dstStrides 0
  let next ← add64 span 1
  let workers := min (threadCount threads hardware : Int) outer
  if stride < next ∨ workers ≤ 1 then gatherRanges bound fill [(0, outer)] 0
  else do
    let total ← add64 outer workers
    let total ← sub64 total 1
    let ranges ← workerRanges (total / workers) outer workers.toNat 0
    gatherRanges bound fill ranges (workers.toNat - 1)

/-- `TransferOptions`: the threads of the borrowed pool, if there is one. -/
structure GatherOptions where
  gather : Option Nat
  gatherThreads : Nat
deriving DecidableEq, Repr

/-- `minRows`: the byte floor of a worker, in rows. -/
def minRows (rowBytes : Int) : Int := Prefold.minPerWorker rowBytes

/-- `forwardHostGather`, when the pool's call hands out `ranges`; the range that starts at the
    first row is run inline. -/
def forwardHostGather (bound : BoundPlan) (options : GatherOptions) (hardware : Nat)
    (ranges : List (Int × Int)) : Outcome ε HostRun :=
  match options.gather with
  | none =>
      if options.gatherThreads = 1 then executeH2DAlone bound
      else executeH2DThreaded bound options.gatherThreads hardware
  | some threads => do
      let fill ← fillDst bound
      let span ← innerSpan bound.extents bound.dstStrides
      let stride ← fetch bound.dstStrides 0
      let next ← add64 span 1
      let outer ← fetch bound.extents 0
      if stride < next ∨ threads ≤ 1 then gatherRanges bound fill [(0, outer)] 0
      else do
        let _ ← mul64 stride bound.elementSize
        gatherRanges bound fill ranges (ranges.findIdx fun range => range.1 = 0)

end Code

/-- The ranges are those of a call of the pool over the rows of the plan. -/
def Dispatched (bound : BoundPlan) (options : GatherOptions) (ranges : List (Int × Int)) : Prop :=
  ∀ threads ∈ options.gather, ∀ outer ∈ bound.extents.head?, ∀ stride ∈ bound.dstStrides.head?,
    Prefold.ParallelFor threads 0 outer (minRows (stride * bound.elementSize)) ranges

variable {ε : Type}

/-! ### The ranges of the threads -/

/-- The ranges follow each other and have all rows. -/
theorem partition_workerRanges {per outer w : Int} {left : Nat} {ranges : List (Int × Int)}
    (hper : 0 < per) (hcover : outer ≤ (w + left) * per)
    (hrun : (workerRanges per outer left w : Outcome ε _) = .ok ranges) :
    Partition (min (w * per) outer) ranges outer := by
  induction left generalizing w ranges with
  | zero =>
      cases hrun
      rw [Nat.cast_zero, add_zero] at hcover
      exact min_eq_right hcover
  | succ left ih =>
      simp only [workerRanges, bind_ok_iff, mul64_eq_ok, add64_eq_ok] at hrun
      obtain ⟨_, ⟨-, rfl⟩, _, ⟨-, rfl⟩, hrest⟩ := hrun
      by_cases hempty : min (w * per + per) outer ≤ w * per
      · rw [if_pos hempty] at hrest
        cases hrest
        show min (w * per) outer = outer
        omega
      · simp only [if_neg hempty, bind_ok_iff, pure_eq, Outcome.ok.injEq] at hrest
        obtain ⟨rest, hrest, rfl⟩ := hrest
        have hnext : (w + 1) * per = w * per + per := by rw [add_mul, one_mul]
        have hcast : w + ((left + 1 : Nat) : Int) = w + 1 + left := by
          push_cast
          ring
        have htail := ih (by rwa [hcast] at hcover) hrest
        rw [hnext] at htail
        exact ⟨by dsimp only; omega, by dsimp only; omega, htail⟩

/-- The rows of a worker, rounded up, cover the rows. -/
theorem le_mul_ceil (outer : Int) {workers : Int} (hworkers : 1 < workers) :
    outer ≤ workers * ((outer + workers - 1) / workers) := by
  have hlt := Int.lt_mul_ediv_self_add (x := outer + workers - 1) (show 0 < workers by omega)
  omega

theorem exists_workerRanges {per outer w : Int} {left : Nat} (hper : 0 < per) (hw : 0 ≤ w)
    (hfits : FitsI64 ((w + left) * per)) :
    ∃ ranges, (workerRanges per outer left w : Outcome ε _) = .ok ranges := by
  induction left generalizing w with
  | zero => exact ⟨[], rfl⟩
  | succ left ih =>
      have hcast : w + ((left + 1 : Nat) : Int) = w + 1 + left := by
        push_cast
        ring
      rw [hcast] at hfits
      have hfirst : 0 ≤ w * per := mul_nonneg hw hper.le
      have hnext : (w + 1) * per = w * per + per := by rw [add_mul, one_mul]
      have hlast : (w + 1) * per ≤ (w + 1 + left) * per :=
        mul_le_mul_of_nonneg_right (by omega) hper.le
      have hfits1 : FitsI64 (w * per) := by
        unfold FitsI64 at hfits ⊢
        omega
      have hfits2 : FitsI64 (w * per + per) := by
        unfold FitsI64 at hfits ⊢
        omega
      obtain ⟨rest, hrest⟩ : ∃ rest, (workerRanges per outer left (w + 1) : Outcome ε _) =
          .ok rest := ih (by omega) hfits
      rw [workerRanges, mul64, exact64_of_fits hfits1, ok_bind, add64, exact64_of_fits hfits2,
        ok_bind]
      split
      · exact ⟨[], rfl⟩
      · rw [hrest, ok_bind]
        exact ⟨_, rfl⟩

end SymReloc.HostGather
