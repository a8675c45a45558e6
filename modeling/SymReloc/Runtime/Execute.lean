import SymReloc.Codec
import SymReloc.Copies
import SymReloc.Runtime.Geometry
import Mathlib.Tactic.LinearCombination

/-!
# The host executor

`executeH2D` fills the destination with the pad value and gathers the valid
cells.  A gather is modelled as the list of its `memcpy`s, in order, with every
address computed in the 64-bit arithmetic of the code; `moves_gatherChunk` says
which bytes they move and `gatherChunk_isOk` when the arithmetic stays in range.
-/

namespace SymReloc

open Outcome

/-- The integers from `lo` up to, not including, `hi`. -/
def intRange (lo hi : Int) : List Int := (List.range (hi - lo).toNat).map fun k : Nat => lo + k

@[simp] theorem mem_intRange {lo hi i : Int} : i ∈ intRange lo hi ↔ lo ≤ i ∧ i < hi := by
  simp only [intRange, List.mem_map, List.mem_range]
  constructor
  · rintro ⟨k, hk, rfl⟩
    omega
  · intro h
    exact ⟨(i - lo).toNat, by omega, by omega⟩

/-! ### The strided walk -/

section Walk

variable {ε : Type}

/-- The copies along the innermost axis: one run when both sides are contiguous. -/
def copyRun1D (es : Nat) (axis : WalkAxis) (srcOff dstOff iBegin iEnd : Int) :
    Outcome ε (List ByteCopy) :=
  if axis.srcStride = 1 ∧ axis.dstStride = 1 then do
    let at1 ← add64 dstOff iBegin
    let at1 ← add64 at1 axis.lo
    let dst ← mul64 at1 es
    let at2 ← add64 srcOff iBegin
    let src ← mul64 at2 es
    let count ← sub64 iEnd iBegin
    let bytes ← exactSize (toSize count * es)
    pure [{ dst, src, bytes }]
  else
    mapEach (intRange iBegin iEnd) fun i => do
      let j ← add64 i axis.lo
      let step ← mul64 j axis.dstStride
      let cell ← add64 dstOff step
      let dst ← mul64 cell es
      let step ← mul64 i axis.srcStride
      let cell ← add64 srcOff step
      let src ← mul64 cell es
      pure { dst, src, bytes := es }

/-- `walk`: only the first axis is ranged, the others run over their extents. -/
def walk (es : Nat) : List WalkAxis → Int → Int → Int → Int → Outcome ε (List ByteCopy)
  | [], _, _, _, _ => .ok []
  | [axis], iBegin, iEnd, srcOff, dstOff => copyRun1D es axis srcOff dstOff iBegin iEnd
  | axis :: next :: rest, iBegin, iEnd, srcOff, dstOff => do
      let runs ← mapEach (intRange iBegin iEnd) fun i => do
        let step ← mul64 i axis.srcStride
        let src ← add64 srcOff step
        let j ← add64 i axis.lo
        let step ← mul64 j axis.dstStride
        let dst ← add64 dstOff step
        walk es (next :: rest) 0 next.extent src dst
      pure runs.flatten

end Walk

/-! ### The 32-bit transpose -/

def kBlock : Int := 32
def kBytes : Int := 4

/-- The blocks of at most `kBlock` indices below `n`. -/
def blocks (n : Int) : List (Int × Int) :=
  (List.range ((n.toNat + 31) / 32)).map fun k : Nat =>
    (kBlock * k, kBlock * k + min kBlock (n - kBlock * k))

/-- The cells of a matrix in the order the scalar kernel visits them; the register
    kernel copies the same cells eight rows and columns at a time. -/
def blockedCells (rows columns : Int) : List (Int × Int) :=
  (blocks rows).flatMap fun rb => (blocks columns).flatMap fun cb =>
    (intRange rb.1 rb.2).flatMap fun r => (intRange cb.1 cb.2).map fun c => (r, c)

/-- The transpose of the outer rows of a full matrix, from two base offsets. -/
def transpose32 {ε : Type} (dstBase srcBase rows columns srcStride : Int) :
    Outcome ε (List ByteCopy) :=
  mapEach (blockedCells rows columns) fun cell => do
    let row ← mul64 cell.1 columns
    let at1 ← add64 row cell.2
    let dst ← mul64 at1 kBytes
    let row ← mul64 cell.2 srcStride
    let at2 ← add64 row cell.1
    let src ← mul64 at2 kBytes
    pure { dst := dstBase + dst, src := srcBase + src, bytes := 4 }

/-- The plan is the transpose of a full matrix of 32-bit elements: its rows and columns. -/
def BoundPlan.transposed32 (bound : BoundPlan) : Option (Int × Int) :=
  match bound.extents, bound.srcStrides, bound.dstStrides with
  | [rows, columns], [srcRow, srcColumn], [dstRow, dstColumn] =>
      if bound.typed = false ∧ bound.elementSize = 4 ∧ bound.padRegions = [] ∧ 0 < rows ∧
          0 < columns ∧ srcRow = 1 ∧ srcColumn = rows ∧ dstRow = columns ∧ dstColumn = 1 then
        some (rows, columns)
      else none
  | _, _, _ => none

/-- `tryGatherTranspose32`, where it applies. -/
def gatherTranspose32 {ε : Type} (rows columns outerBegin outerEnd : Int) :
    Outcome ε (List ByteCopy) :=
  if outerEnd ≤ outerBegin then .ok []
  else do
    let count ← sub64 outerEnd outerBegin
    let srcBase ← mul64 outerBegin kBytes
    let skipped ← mul64 outerBegin columns
    let dstBase ← mul64 skipped kBytes
    if rows = 1 ∨ columns = 1 then do
      let elements ← mul64 count columns
      let bytes ← mul64 elements kBytes
      pure [{ dst := dstBase, src := srcBase, bytes := toSize bytes }]
    else transpose32 dstBase srcBase count columns rows

/-- `gatherChunk`: the valid cells of the outer rows `[outerBegin, outerEnd)`. -/
def gatherChunk {ε : Type} (bound : BoundPlan) (outerBegin outerEnd : Int) :
    Outcome ε (List ByteCopy) :=
  match bound.transposed32 with
  | some (rows, columns) => gatherTranspose32 rows columns outerBegin outerEnd
  | none => walk bound.elementSize bound.walkAxes outerBegin outerEnd 0 0

/-! ### Pads and the whole destination -/

/-- The bytes of a 64-bit pattern in memory. -/
def pattern (bits : Nat) : Memory UInt8 := fun d => (leBytes 8 bits).getD d.toNat 0

/-- `fillPattern`: one copy of the pattern for each element. -/
def fillPattern {ε : Type} (es : Nat) (count : Int) : Outcome ε (List ByteCopy) :=
  mapEach (intRange 0 count) fun e => do
    let dst ← mul64 e es
    pure { dst, src := 0, bytes := es }

def product {ε : Type} : List Int → Int → Outcome ε Int
  | [], count => .ok count
  | extent :: rest, count => do
      let count ← mul64 count extent
      product rest count

/-- `fillDst`, as the bits and the copies of its pattern. -/
def fillDst {ε : Type} (bound : BoundPlan) : Outcome ε (Nat × List ByteCopy) :=
  match bound.padRegions with
  | [] => .ok (0, [])
  | region :: _ => do
      let padded ← padExtents bound.extents bound.padRegions
      let count ← product padded 1
      let copies ← fillPattern bound.elementSize count
      pure (region.fillBits, copies)

/-- `executeH2D`: the destination it leaves. -/
def executeH2D {ε : Type} (bound : BoundPlan) (source memory : Memory UInt8) :
    Outcome ε (Memory UInt8) := do
  let fill ← fillDst bound
  let outer ← fetch bound.extents 0
  let copies ← gatherChunk bound 0 outer
  pure (runCopies source copies (runCopies (pattern fill.1) fill.2 memory))

/-! ### The copies of a walk -/

/-- Byte `d` of the destination gets byte `s` of the source when some valid index with
    its outermost count in the range addresses both. -/
def Gathers (es : Nat) (axes : List WalkAxis) (iBegin iEnd srcOff dstOff : Int) (d s : Int) :
    Prop :=
  ∃ (index : List Int) (j : Int), Valid axes index ∧ iBegin ≤ index.headI ∧
    index.headI < iEnd ∧ 0 ≤ j ∧ j < es ∧
    d = (dstOff + dstOffset axes index) * es + j ∧ s = (srcOff + srcOffset axes index) * es + j

/-- The copies of `copyRun1D`, over the integers. -/
def runTrace (es : Nat) (axis : WalkAxis) (srcOff dstOff iBegin iEnd : Int) : List ByteCopy :=
  if axis.srcStride = 1 ∧ axis.dstStride = 1 then
    [{ dst := (dstOff + iBegin + axis.lo) * es, src := (srcOff + iBegin) * es,
       bytes := (iEnd - iBegin).toNat * es }]
  else
    (intRange iBegin iEnd).map fun i =>
      { dst := (dstOff + (i + axis.lo) * axis.dstStride) * es,
        src := (srcOff + i * axis.srcStride) * es, bytes := es }

/-- The copies of `walk`, over the integers. -/
def walkTrace (es : Nat) : List WalkAxis → Int → Int → Int → Int → List ByteCopy
  | [], _, _, _, _ => []
  | [axis], iBegin, iEnd, srcOff, dstOff => runTrace es axis srcOff dstOff iBegin iEnd
  | axis :: next :: rest, iBegin, iEnd, srcOff, dstOff =>
      (intRange iBegin iEnd).flatMap fun i =>
        walkTrace es (next :: rest) 0 next.extent (srcOff + i * axis.srcStride)
          (dstOff + (i + axis.lo) * axis.dstStride)

variable {ε : Type} {es : Nat} {axis : WalkAxis} {axes : List WalkAxis}
  {iBegin iEnd srcOff dstOff d s : Int} {copies : List ByteCopy}

theorem eq_runTrace (hle : iBegin ≤ iEnd)
    (hrun : (copyRun1D es axis srcOff dstOff iBegin iEnd : Outcome ε _) = .ok copies) :
    copies = runTrace es axis srcOff dstOff iBegin iEnd := by
  unfold copyRun1D at hrun
  unfold runTrace
  by_cases hone : axis.srcStride = 1 ∧ axis.dstStride = 1
  · simp only [if_pos hone, bind_ok_iff, add64_eq_ok, mul64_eq_ok, sub64_eq_ok,
      exactSize_eq_ok] at hrun
    obtain ⟨_, ⟨-, rfl⟩, _, ⟨-, rfl⟩, _, ⟨-, rfl⟩, _, ⟨-, rfl⟩, _, ⟨-, rfl⟩, _, ⟨hcount, rfl⟩, _,
      ⟨-, rfl⟩, ⟨⟩⟩ := hrun
    have hsize : toSize (iEnd - iBegin) = (iEnd - iBegin).toNat := by
      have := toSize_of_nonneg (Int.sub_nonneg.mpr hle) hcount
      omega
    rw [if_pos hone, hsize]
  · rw [if_neg hone] at hrun ⊢
    refine eq_map_of_mapEach hrun fun i _ copy hcopy => ?_
    simp only [bind_ok_iff, add64_eq_ok, mul64_eq_ok] at hcopy
    obtain ⟨_, ⟨-, rfl⟩, _, ⟨-, rfl⟩, _, ⟨-, rfl⟩, _, ⟨-, rfl⟩, _, ⟨-, rfl⟩, _, ⟨-, rfl⟩, _,
      ⟨-, rfl⟩, ⟨⟩⟩ := hcopy
    rfl

theorem eq_walkTrace (hextent : ∀ axis ∈ axes, 1 ≤ axis.extent) (hle : iBegin ≤ iEnd)
    (hrun : (walk es axes iBegin iEnd srcOff dstOff : Outcome ε _) = .ok copies) :
    copies = walkTrace es axes iBegin iEnd srcOff dstOff := by
  induction axes generalizing iBegin iEnd srcOff dstOff copies with
  | nil =>
      cases hrun
      rfl
  | cons axis axes ih =>
      cases axes with
      | nil => exact eq_runTrace hle hrun
      | cons next rest =>
          simp only [walk, bind_ok_iff, pure_eq, Outcome.ok.injEq] at hrun
          obtain ⟨runs, hruns, rfl⟩ := hrun
          rw [walkTrace, List.flatMap]
          congr 1
          refine eq_map_of_mapEach hruns fun i _ run hbody => ?_
          simp only [bind_ok_iff, add64_eq_ok, mul64_eq_ok] at hbody
          obtain ⟨_, ⟨-, rfl⟩, _, ⟨-, rfl⟩, _, ⟨-, rfl⟩, _, ⟨-, rfl⟩, _, ⟨-, rfl⟩, hrest⟩ := hbody
          have hnext := hextent next (by simp)
          exact ih (fun a ha => hextent a (by simp [ha])) (by omega) hrest

theorem moves_runTrace (hes : 0 < es) (hlo : 0 ≤ iBegin) (hhi : iEnd ≤ axis.extent) :
    Moves (runTrace es axis srcOff dstOff iBegin iEnd) d s ↔
      Gathers es [axis] iBegin iEnd srcOff dstOff d s := by
  have hgathers : Gathers es [axis] iBegin iEnd srcOff dstOff d s ↔ ∃ i j : Int, iBegin ≤ i ∧
      i < iEnd ∧ 0 ≤ j ∧ j < es ∧ d = (dstOff + (i + axis.lo) * axis.dstStride) * es + j ∧
        s = (srcOff + i * axis.srcStride) * es + j := by
    constructor
    · rintro ⟨_, j, (_ | ⟨hi, ⟨⟩⟩), hbegin, hend, hj⟩
      exact ⟨_, j, hbegin, hend, by simpa [dstOffset, srcOffset] using hj⟩
    · rintro ⟨i, j, hbegin, hend, hj⟩
      exact ⟨[i], j, .cons ⟨by omega, by omega⟩ .nil, hbegin, hend,
        by simpa [dstOffset, srcOffset] using hj⟩
  rw [hgathers, runTrace]
  by_cases hone : axis.srcStride = 1 ∧ axis.dstStride = 1
  · rw [if_pos hone, hone.1, hone.2]
    simp only [moves_cons, moves_nil, or_false, ByteCopy.Moves]
    have hes' : (0 : Int) < es := by omega
    constructor
    · -- the position in the run is the element and the byte in it
      rintro ⟨k, hk, hklt, rfl, rfl⟩
      have hdiv := Int.mul_ediv_add_emod k es
      have hmod := Int.emod_lt_of_pos k hes'
      have hmod0 := Int.emod_nonneg k (by omega : (es : Int) ≠ 0)
      have hquot : 0 ≤ k / es := Int.ediv_nonneg hk (by omega)
      have hlt : k / es < (iEnd - iBegin).toNat :=
        Int.ediv_lt_of_lt_mul hes' (by rw [Nat.cast_mul] at hklt; exact hklt)
      refine ⟨iBegin + k / es, k % es, by omega, by omega, hmod0, hmod, ?_, ?_⟩
      · linear_combination -hdiv
      · linear_combination -hdiv
    · rintro ⟨i, j, hbegin, hend, hj, hjlt, rfl, rfl⟩
      have hi : 0 ≤ (i - iBegin) * es := mul_nonneg (by omega) (by omega)
      refine ⟨(i - iBegin) * es + j, by omega, ?_, by ring, by ring⟩
      have hcount : ((iEnd - iBegin).toNat : Int) = iEnd - iBegin := by omega
      have hstep : (i - iBegin + 1) * (es : Int) ≤ (iEnd - iBegin) * es :=
        mul_le_mul_of_nonneg_right (by omega) (by omega)
      rw [Nat.cast_mul, hcount]
      linarith
  · rw [if_neg hone]
    simp only [moves_map, mem_intRange, ByteCopy.Moves]
    constructor
    · rintro ⟨i, ⟨hbegin, hend⟩, j, hj, hjlt, hd, hs⟩
      exact ⟨i, j, hbegin, hend, hj, hjlt, hd, hs⟩
    · rintro ⟨i, j, hbegin, hend, hj, hjlt, hd, hs⟩
      exact ⟨i, ⟨hbegin, hend⟩, j, hj, hjlt, hd, hs⟩

theorem moves_walkTrace (hes : 0 < es) (hlo : 0 ≤ iBegin) (hhi : iEnd ≤ axis.extent) :
    Moves (walkTrace es (axis :: axes) iBegin iEnd srcOff dstOff) d s ↔
      Gathers es (axis :: axes) iBegin iEnd srcOff dstOff d s := by
  induction axes generalizing axis iBegin iEnd srcOff dstOff with
  | nil => exact moves_runTrace hes hlo hhi
  | cons next rest ih =>
      rw [walkTrace, moves_flatMap]
      constructor
      · rintro ⟨i, hi, hmoves⟩
        rw [mem_intRange] at hi
        obtain ⟨index, j, hvalid, -, -, hj, hjlt, hd, hs⟩ :=
          (ih (le_refl 0) (le_refl next.extent)).mp hmoves
        refine ⟨i :: index, j, .cons ⟨by omega, by omega⟩ hvalid, hi.1, hi.2, hj, hjlt, ?_, ?_⟩
        · rw [hd, dstOffset, add_assoc]
        · rw [hs, srcOffset, add_assoc]
      · rintro ⟨_, j, (_ | ⟨hi, hvalid⟩), hbegin, hend, hj, hjlt, hd, hs⟩
        rename_i i index
        refine ⟨i, mem_intRange.mpr ⟨hbegin, hend⟩,
          (ih (le_refl 0) (le_refl next.extent)).mpr ⟨index, j, hvalid, ?_, ?_, hj, hjlt, ?_, ?_⟩⟩
        · rcases hvalid with _ | ⟨hi', _⟩
          exact hi'.1
        · rcases hvalid with _ | ⟨hi', _⟩
          exact hi'.2
        · rw [hd, dstOffset, add_assoc]
        · rw [hs, srcOffset, add_assoc]

/-! ### Arithmetic in range -/

/-- The byte offset of an element can be computed in a signed word. -/
def InBytes (es : Nat) (x : Int) : Prop := 0 ≤ x ∧ x * es < 2 ^ 63

theorem InBytes.mono {x y : Int} (h : InBytes es x) (hy : 0 ≤ y) (hle : y ≤ x) : InBytes es y :=
  ⟨hy, lt_of_le_of_lt (mul_le_mul_of_nonneg_right hle (by omega)) h.2⟩

theorem InBytes.fits_mul {x : Int} (h : InBytes es x) : FitsI64 (x * es) :=
  ⟨le_trans (by decide) (mul_nonneg h.1 (Int.natCast_nonneg es)), h.2⟩

theorem InBytes.fits {x : Int} (h : InBytes es x) (hes : 0 < es) : FitsI64 x := by
  have hle : x * 1 ≤ x * es := mul_le_mul_of_nonneg_left (by omega) h.1
  have hlt := h.2
  have hpos := h.1
  unfold FitsI64
  omega

/-- A byte offset determines its element and the byte in the element. -/
theorem element_inj {x x' j j' : Int} (hj : 0 ≤ j ∧ j < es) (hj' : 0 ≤ j' ∧ j' < es)
    (heq : x * es + j = x' * es + j') : x = x' ∧ j = j' := by
  have hne : ¬ x < x' ∧ ¬ x' < x := by
    constructor
    · intro hlt
      have := mul_le_mul_of_nonneg_right (Int.add_one_le_of_lt hlt) (Int.natCast_nonneg es)
      rw [add_mul, one_mul] at this
      omega
    · intro hlt
      have := mul_le_mul_of_nonneg_right (Int.add_one_le_of_lt hlt) (Int.natCast_nonneg es)
      rw [add_mul, one_mul] at this
      omega
  obtain rfl : x = x' := by omega
  exact ⟨rfl, by omega⟩

/-- What the walk needs of every axis. -/
def WalkAxis.Walkable (axis : WalkAxis) : Prop :=
  1 ≤ axis.extent ∧ 0 ≤ axis.lo ∧ 0 ≤ axis.srcStride ∧ 0 ≤ axis.dstStride ∧
    FitsI64 (axis.extent + axis.lo)

def lastValid (axes : List WalkAxis) : List Int := axes.map fun axis => axis.extent - 1

/-- The largest source offset at which a copy starts; a run of contiguous elements
    starts at its first one. -/
def lastStart : List WalkAxis → Int → Int
  | [], _ => 0
  | [axis], iBegin =>
      if axis.srcStride = 1 ∧ axis.dstStride = 1 then iBegin
      else (axis.extent - 1) * axis.srcStride
  | axis :: next :: rest, _ => (axis.extent - 1) * axis.srcStride + lastStart (next :: rest) 0

theorem dstOffset_last_nonneg (h : ∀ axis ∈ axes, axis.Walkable) :
    0 ≤ dstOffset axes (lastValid axes) := by
  induction axes with
  | nil => exact le_refl 0
  | cons axis axes ih =>
      obtain ⟨hextent, hlo, -, hdst, -⟩ := h axis (by simp)
      exact add_nonneg (mul_nonneg (add_nonneg (sub_nonneg.mpr hextent) hlo) hdst)
        (ih fun a ha => h a (by simp [ha]))

theorem lastStart_nonneg (h : ∀ axis ∈ axes, axis.Walkable) (hbegin : 0 ≤ iBegin) :
    0 ≤ lastStart axes iBegin := by
  induction axes generalizing iBegin with
  | nil => exact le_refl 0
  | cons axis axes ih =>
      obtain ⟨hextent, -, hsrc, -⟩ := h axis (by simp)
      have hhead : 0 ≤ (axis.extent - 1) * axis.srcStride := mul_nonneg (by omega) hsrc
      cases axes with
      | nil =>
          rw [lastStart]
          split
          · exact hbegin
          · exact hhead
      | cons next rest => exact add_nonneg hhead (ih (fun a ha => h a (by simp [ha])) (le_refl 0))

/-- One axis of the walk: the offsets of an index in range, and their sums. -/
theorem WalkAxis.Walkable.step (h : axis.Walkable) {i : Int} (hi : 0 ≤ i ∧ i < axis.extent) :
    (0 ≤ i * axis.srcStride ∧ i * axis.srcStride ≤ (axis.extent - 1) * axis.srcStride) ∧
      (0 ≤ (i + axis.lo) * axis.dstStride ∧
        (i + axis.lo) * axis.dstStride ≤ (axis.extent - 1 + axis.lo) * axis.dstStride) ∧
      FitsI64 (i + axis.lo) := by
  obtain ⟨-, hlo, hsrc, hdst, hfits⟩ := h
  refine ⟨⟨mul_nonneg hi.1 hsrc, mul_le_mul_of_nonneg_right (by omega) hsrc⟩,
    ⟨mul_nonneg (by omega) hdst, mul_le_mul_of_nonneg_right (by omega) hdst⟩, ?_⟩
  unfold FitsI64 at hfits ⊢
  omega

theorem exists_copyRun1D (hes : 0 < es ∧ es < 2 ^ 32) (hwalk : axis.Walkable) (hbegin : 0 ≤ iBegin)
    (hlt : iBegin < iEnd) (hend : iEnd ≤ axis.extent) (hsrc0 : 0 ≤ srcOff) (hdst0 : 0 ≤ dstOff)
    (hstart : InBytes es (srcOff + lastStart [axis] iBegin))
    (hdst : InBytes es (dstOff + dstOffset [axis] (lastValid [axis]))) :
    ∃ copies, (copyRun1D es axis srcOff dstOff iBegin iEnd : Outcome ε _) = .ok copies := by
  simp only [lastValid, List.map_cons, List.map_nil, dstOffset, add_zero,
    lastStart] at hdst hstart
  unfold copyRun1D
  by_cases hone : axis.srcStride = 1 ∧ axis.dstStride = 1
  · rw [if_pos hone] at hstart ⊢
    rw [hone.2, mul_one] at hdst
    have hlo := hwalk.2.1
    have hrun : InBytes es (dstOff + iBegin + axis.lo) := hdst.mono (by omega) (by omega)
    have hfirst : InBytes es (dstOff + iBegin) := hdst.mono (by omega) (by omega)
    have hcount : InBytes es (iEnd - iBegin - 1) := hdst.mono (by omega) (by omega)
    have hfits : FitsI64 (iEnd - iBegin) := by
      have := hwalk.2.2.2.2
      unfold FitsI64 at this ⊢
      omega
    have hsize : FitsSize (toSize (iEnd - iBegin) * es) := by
      have hcast := toSize_of_nonneg (show 0 ≤ iEnd - iBegin by omega) hfits
      have hbytes := hcount.2
      have hexpand : ((toSize (iEnd - iBegin) * es : Nat) : Int)
          = (iEnd - iBegin - 1) * es + es := by
        rw [Nat.cast_mul, hcast]
        ring
      unfold FitsSize
      omega
    simp only [add64, mul64, sub64, exact64_of_fits (hfirst.fits hes.1),
      exact64_of_fits (hrun.fits hes.1), exact64_of_fits hrun.fits_mul,
      exact64_of_fits (hstart.fits hes.1), exact64_of_fits hstart.fits_mul,
      exact64_of_fits hfits, exactSize_of_fits hsize, ok_bind, pure_eq]
    exact ⟨_, rfl⟩
  · rw [if_neg hone] at hstart ⊢
    refine exists_mapEach fun i hi => ?_
    rw [mem_intRange] at hi
    obtain ⟨hs, hd, hj⟩ := hwalk.step (i := i) ⟨by omega, by omega⟩
    have hdstep : InBytes es ((i + axis.lo) * axis.dstStride) := hdst.mono (by omega) (by omega)
    have hdcell : InBytes es (dstOff + (i + axis.lo) * axis.dstStride) :=
      hdst.mono (by omega) (by omega)
    have hsstep : InBytes es (i * axis.srcStride) := hstart.mono (by omega) (by omega)
    have hscell : InBytes es (srcOff + i * axis.srcStride) := hstart.mono (by omega) (by omega)
    simp only [add64, mul64, exact64_of_fits hj, exact64_of_fits (hdstep.fits hes.1),
      exact64_of_fits (hdcell.fits hes.1), exact64_of_fits hdcell.fits_mul,
      exact64_of_fits (hsstep.fits hes.1), exact64_of_fits (hscell.fits hes.1),
      exact64_of_fits hscell.fits_mul, ok_bind, pure_eq]
    exact ⟨_, rfl⟩

/-- The walk stays in range when its last reads and writes do. -/
theorem exists_walk (hes : 0 < es ∧ es < 2 ^ 32) (hwalk : ∀ a ∈ axis :: axes, a.Walkable)
    (hbegin : 0 ≤ iBegin) (hlt : iBegin < iEnd) (hend : iEnd ≤ axis.extent) (hsrc0 : 0 ≤ srcOff)
    (hdst0 : 0 ≤ dstOff)
    (hstart : InBytes es (srcOff + lastStart (axis :: axes) iBegin))
    (hdst : InBytes es (dstOff + dstOffset (axis :: axes) (lastValid (axis :: axes)))) :
    ∃ copies, (walk es (axis :: axes) iBegin iEnd srcOff dstOff : Outcome ε _) = .ok copies := by
  induction axes generalizing axis iBegin iEnd srcOff dstOff with
  | nil =>
      exact exists_copyRun1D hes (hwalk axis (by simp)) hbegin hlt hend hsrc0 hdst0 hstart hdst
  | cons next rest ih =>
      have hrest : ∀ a ∈ next :: rest, a.Walkable := fun a ha => hwalk a (by simp [ha])
      have hd0 := dstOffset_last_nonneg hrest
      have hl0 := lastStart_nonneg hrest (le_refl 0)
      rw [lastValid, List.map_cons, dstOffset] at hdst
      rw [lastStart] at hstart
      change InBytes es (dstOff + (_ + dstOffset (next :: rest) (lastValid (next :: rest)))) at hdst
      have hbody : ∀ i ∈ intRange iBegin iEnd, ∃ run, (do
          let step ← mul64 i axis.srcStride
          let src ← add64 srcOff step
          let j ← add64 i axis.lo
          let step ← mul64 j axis.dstStride
          let dst ← add64 dstOff step
          walk es (next :: rest) 0 next.extent src dst : Outcome ε _) = .ok run := by
        intro i hi
        rw [mem_intRange] at hi
        obtain ⟨hs, hd, hj⟩ := (hwalk axis (by simp)).step (i := i) ⟨by omega, by omega⟩
        have hdstep : InBytes es ((i + axis.lo) * axis.dstStride) :=
          hdst.mono (by omega) (by omega)
        have hdcell : InBytes es (dstOff + (i + axis.lo) * axis.dstStride) :=
          hdst.mono (by omega) (by omega)
        have hsstep : InBytes es (i * axis.srcStride) := hstart.mono (by omega) (by omega)
        have hscell : InBytes es (srcOff + i * axis.srcStride) :=
          hstart.mono (by omega) (by omega)
        have hnext := (hrest next (by simp)).1
        simp only [add64, mul64, exact64_of_fits hj, exact64_of_fits (hdstep.fits hes.1),
          exact64_of_fits (hdcell.fits hes.1), exact64_of_fits (hsstep.fits hes.1),
          exact64_of_fits (hscell.fits hes.1), ok_bind]
        exact ih hrest (le_refl 0) (by omega) (le_refl _) hscell.1 hdcell.1
          (hstart.mono (by omega) (by omega)) (hdst.mono (by omega) (by omega))
      obtain ⟨runs, hruns⟩ := exists_mapEach hbody
      exact ⟨runs.flatten, by rw [walk, hruns, ok_bind, pure_eq]⟩

/-- A walk up to the last outer row computes the byte offset of its last read. -/
theorem fits_lastStart_of_walk (hwalk : ∀ a ∈ axis :: axes, a.Walkable)
    (hlt : iBegin < axis.extent)
    (hrun : (walk es (axis :: axes) iBegin axis.extent srcOff dstOff : Outcome ε _) = .ok copies) :
    FitsI64 ((srcOff + lastStart (axis :: axes) iBegin) * es) := by
  induction axes generalizing axis iBegin srcOff dstOff copies with
  | nil =>
      rw [walk, copyRun1D] at hrun
      rw [lastStart]
      by_cases hone : axis.srcStride = 1 ∧ axis.dstStride = 1
      · simp only [if_pos hone, bind_ok_iff, add64_eq_ok, mul64_eq_ok] at hrun ⊢
        obtain ⟨_, -, _, -, _, -, _, ⟨-, rfl⟩, _, ⟨hfits, -⟩, -⟩ := hrun
        exact hfits
      · rw [if_neg hone] at hrun ⊢
        have hmem : axis.extent - 1 ∈ intRange iBegin axis.extent :=
          mem_intRange.mpr ⟨by omega, by omega⟩
        obtain ⟨copy, hcopy⟩ := exists_of_mapEach hrun hmem
        simp only [bind_ok_iff, add64_eq_ok, mul64_eq_ok] at hcopy
        obtain ⟨_, -, _, -, _, -, _, -, _, ⟨-, rfl⟩, _, ⟨-, rfl⟩, _, ⟨hfits, -⟩, -⟩ := hcopy
        exact hfits
  | cons next rest ih =>
      simp only [walk, bind_ok_iff] at hrun
      obtain ⟨runs, hruns, -⟩ := hrun
      have hmem : axis.extent - 1 ∈ intRange iBegin axis.extent :=
        mem_intRange.mpr ⟨by omega, by omega⟩
      obtain ⟨run, hbody⟩ := exists_of_mapEach hruns hmem
      simp only [bind_ok_iff, add64_eq_ok, mul64_eq_ok] at hbody
      obtain ⟨_, ⟨-, rfl⟩, _, ⟨-, rfl⟩, _, -, _, -, _, -, hinner⟩ := hbody
      have hrest : ∀ a ∈ next :: rest, a.Walkable := fun a ha => hwalk a (by simp [ha])
      have hnext := (hrest next (by simp)).1
      have hfits := ih hrest (by omega) hinner
      rwa [add_assoc] at hfits

end SymReloc
