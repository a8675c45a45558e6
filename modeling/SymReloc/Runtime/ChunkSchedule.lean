import Mathlib.Tactic.Zify
import SymReloc.Runtime.AdmittedPlan

/-!
# Chunk planning

`planChunks` slices the outermost axis of a plan into runs of padded rows, each
with a contiguous window of destination bytes; where the rows are not provably
disjoint it falls back to one chunk.  For an admitted plan the windows tile the
destination, and a window holds exactly the cells of its rows.
-/

namespace SymReloc

open Outcome

/-- A run of physical (padded) outer rows with its window of destination bytes. -/
structure Chunk where
  paddedBegin : Int
  paddedEnd : Int
  validBegin : Int
  validEnd : Int
  byteOffset : Int
  bytes : Nat
deriving DecidableEq, Repr

structure ChunkSchedule where
  chunks : List Chunk
  maxChunkBytes : Nat
  outerLo : Int
  rowBytes : Int
  serialized : Bool
deriving DecidableEq, Repr

def kMinChunkBytes : Nat := 4 * 1024 * 1024
def kMaxChunkBytes : Nat := 64 * 1024 * 1024
def kChunksPerBuffer : Nat := 8

section Planner

variable {ε : Type}

/-- The pad widths of the outermost axis; a later region replaces an earlier one. -/
def outerPad (pad : Int × Int) (regions : List PadRegion) : Int × Int :=
  regions.foldl (fun pad region => if region.axis = 0 then (region.lo, region.hi) else pad) pad

def innerSpanFrom : List (Int × Int) → Int → Outcome ε Int
  | [], span => .ok span
  | entry :: rest, span => do
      let last ← sub64 entry.1 1
      let step ← mul64 last entry.2
      let span ← add64 span step
      innerSpanFrom rest span

/-- The reach of all axes but the outermost. -/
def innerSpan (padded strides : List Int) : Outcome ε Int :=
  innerSpanFrom (padded.zip strides).tail 0

/-- The bytes a chunk aims at. -/
def chunkTarget (totalBytes nBuffers : Int) (chunkSizeOverride : Nat) : Outcome ε Nat :=
  if chunkSizeOverride ≠ 0 then .ok chunkSizeOverride
  else do
    let parts ← exactSize (kChunksPerBuffer * toSize nBuffers)
    pure (max kMinChunkBytes (min (toSize totalBytes / parts) kMaxChunkBytes))

/-- One chunk, from the padded row `pb` on. -/
def cutChunk (outerLo validOuter rowBytes rowsPerChunk paddedOuter pb : Int) :
    Outcome ε Chunk := do
  let left ← sub64 paddedOuter pb
  let pe ← add64 pb (min rowsPerChunk left)
  let first ← sub64 pb outerLo
  let vb := min (max first 0) validOuter
  let last ← sub64 pe outerLo
  let ve := max vb (min last validOuter)
  let byteOffset ← mul64 pb rowBytes
  let rows ← sub64 pe pb
  let bytes ← mul64 rows rowBytes
  pure { paddedBegin := pb, paddedEnd := pe, validBegin := vb, validEnd := ve, byteOffset,
         bytes := toSize bytes }

/-- The chunks from the padded row `pb` on; every chunk has a row. -/
def cutChunks (outerLo validOuter rowBytes rowsPerChunk paddedOuter : Int) :
    Nat → Int → Outcome ε (List Chunk)
  | 0, _ => .ok []
  | fuel + 1, pb =>
      if pb < paddedOuter then do
        let chunk ← cutChunk outerLo validOuter rowBytes rowsPerChunk paddedOuter pb
        let rest ← cutChunks outerLo validOuter rowBytes rowsPerChunk paddedOuter fuel
          chunk.paddedEnd
        pure (chunk :: rest)
      else .ok []

def rowsOfTarget (target : Nat) (rowBytes paddedOuter : Int) : Int :=
  if 0 < rowBytes then min (toSize paddedOuter) (max 1 (target / toSize rowBytes))
  else paddedOuter

/-- The schedule of provably disjoint rows. -/
def planRows (bound : BoundPlan) (nBuffers : Int) (chunkSizeOverride : Nat)
    (outerLo validOuter rowBytes paddedOuter : Int) : Outcome ε ChunkSchedule := do
  let target ← chunkTarget bound.totalBytes nBuffers chunkSizeOverride
  let rowsPerChunk := rowsOfTarget target rowBytes paddedOuter
  let chunks ← cutChunks outerLo validOuter rowBytes rowsPerChunk paddedOuter paddedOuter.toNat 0
  let maxChunkBytes ← mul64 rowsPerChunk rowBytes
  pure { chunks, maxChunkBytes := toSize maxChunkBytes, outerLo, rowBytes, serialized := false }

/-- The fallback: one chunk for the whole tensor. -/
def wholeSchedule (bound : BoundPlan) (outerLo validOuter rowBytes paddedOuter : Int) :
    ChunkSchedule :=
  { chunks := [{ paddedBegin := 0, paddedEnd := paddedOuter, validBegin := 0,
                 validEnd := validOuter, byteOffset := 0, bytes := toSize bound.totalBytes }]
    maxChunkBytes := toSize bound.totalBytes
    outerLo, rowBytes, serialized := true }

def planChunks (bound : BoundPlan) (nBuffers : Int) (chunkSizeOverride : Nat) :
    Outcome ε ChunkSchedule := do
  let padded ← padExtents bound.extents bound.padRegions
  let outer := outerPad (0, 0) bound.padRegions
  let stride ← fetch bound.dstStrides 0
  let rowBytes ← mul64 stride bound.elementSize
  let validOuter ← fetch bound.extents 0
  let paddedOuter ← add64 validOuter outer.1
  let paddedOuter ← add64 paddedOuter outer.2
  let span ← innerSpan padded bound.dstStrides
  let next ← add64 span 1
  if ¬ next ≤ stride ∨ paddedOuter ≤ 0 then
    pure (wholeSchedule bound outer.1 validOuter rowBytes paddedOuter)
  else
    planRows bound (max nBuffers 1) chunkSizeOverride outer.1 validOuter rowBytes paddedOuter

end Planner

/-! ### Windows that tile the destination -/

/-- The destination byte lies in the window. -/
def Chunk.Holds (chunk : Chunk) (d : Int) : Prop :=
  chunk.byteOffset ≤ d ∧ d < chunk.byteOffset + chunk.bytes

/-- The windows follow each other from `start` to `finish`, and none is empty. -/
def Tiles : Int → List Chunk → Int → Prop
  | start, [], finish => start = finish
  | start, chunk :: rest, finish =>
      chunk.byteOffset = start ∧ 0 < chunk.bytes ∧ Tiles (start + chunk.bytes) rest finish

variable {chunks : List Chunk} {chunk : Chunk} {start finish d : Int}

theorem Tiles.le (h : Tiles start chunks finish) : start ≤ finish := by
  induction chunks generalizing start with
  | nil => exact h.le
  | cons chunk rest ih =>
      have := ih h.2.2
      omega

theorem Tiles.bounds (h : Tiles start chunks finish) (hmem : chunk ∈ chunks) :
    start ≤ chunk.byteOffset ∧ chunk.byteOffset + chunk.bytes ≤ finish := by
  induction chunks generalizing start with
  | nil => exact absurd hmem List.not_mem_nil
  | cons head rest ih =>
      obtain ⟨hoffset, -, hrest⟩ := h
      rcases List.mem_cons.mp hmem with rfl | htail
      · have := hrest.le
        omega
      · have := ih hrest htail
        omega

theorem Tiles.pos (h : Tiles start chunks finish) (hmem : chunk ∈ chunks) : 0 < chunk.bytes := by
  induction chunks generalizing start with
  | nil => cases hmem
  | cons first rest ih =>
    obtain ⟨-, hpos, hrest⟩ := h
    rcases List.mem_cons.mp hmem with heq | htail
    · exact heq ▸ hpos
    · exact ih hrest htail

/-- Every destination byte lies in exactly one window. -/
theorem Tiles.existsUnique (h : Tiles start chunks finish) (hd : start ≤ d ∧ d < finish) :
    ∃! k : Nat, ∃ chunk, chunks[k]? = some chunk ∧ chunk.Holds d := by
  induction chunks generalizing start with
  | nil =>
      have : start = finish := h
      omega
  | cons head rest ih =>
      obtain ⟨hoffset, -, hrest⟩ := h
      by_cases hin : d < start + head.bytes
      · refine ⟨0, ⟨head, rfl, by omega, by omega⟩, ?_⟩
        rintro (_ | k) ⟨chunk, hchunk, hlo, hhi⟩
        · rfl
        · have := hrest.bounds (List.mem_of_getElem? hchunk)
          omega
      · obtain ⟨k, ⟨chunk, hchunk, hholds⟩, hunique⟩ := ih hrest ⟨by omega, hd.2⟩
        refine ⟨k + 1, ⟨chunk, hchunk, hholds⟩, ?_⟩
        rintro (_ | k') ⟨chunk', hchunk', hholds'⟩
        · obtain rfl : head = chunk' := by simpa using hchunk'
          have := hholds'.2
          omega
        · exact congrArg (· + 1) (hunique k' ⟨chunk', hchunk', hholds'⟩)

/-- What a chunk says about its rows: which of them are valid, and where their cells lie. -/
structure Chunk.Sound (bound : BoundPlan) (axis : WalkAxis) (chunk : Chunk) : Prop where
  valid : 0 ≤ chunk.validBegin ∧ chunk.validBegin ≤ chunk.validEnd ∧
    chunk.validEnd ≤ axis.extent
  rows : ∀ i, chunk.validBegin ≤ i ∧ i < chunk.validEnd ↔
    (0 ≤ i ∧ i < axis.extent) ∧ chunk.paddedBegin ≤ i + axis.lo ∧ i + axis.lo < chunk.paddedEnd
  first : 0 ≤ chunk.paddedBegin ∧ chunk.paddedBegin < axis.padded
  base : chunk.byteOffset = chunk.paddedBegin * axis.dstStride * bound.elementSize
  whole : ∃ count : Nat, chunk.bytes = count * bound.elementSize
  owns : ∀ (coords : List Int) (j : Int), Strides.InBox bound.targetAxes coords →
    0 ≤ j → j < bound.elementSize →
    (chunk.Holds (Strides.offset bound.targetAxes coords * bound.elementSize + j) ↔
      chunk.paddedBegin ≤ coords.headI ∧ coords.headI < chunk.paddedEnd)

structure ChunkSchedule.Sound (bound : BoundPlan) (axis : WalkAxis) (schedule : ChunkSchedule) :
    Prop where
  nonempty : schedule.chunks ≠ []
  tiles : Tiles 0 schedule.chunks bound.totalBytes
  chunks : ∀ chunk ∈ schedule.chunks, chunk.Sound bound axis
  size : ∀ chunk ∈ schedule.chunks, chunk.bytes ≤ schedule.maxChunkBytes

/-! ### Cutting rows -/

section Cut

variable {ε : Type} {lo valid rowBytes rowsPerChunk paddedOuter pb : Int}

/-- A chunk of rows whose windows are `rowBytes` each. -/
structure Chunk.Cut (lo valid rowBytes paddedOuter : Int) (chunk : Chunk) : Prop where
  range : 0 ≤ chunk.validBegin ∧ chunk.validBegin ≤ chunk.validEnd ∧ chunk.validEnd ≤ valid
  rows : ∀ i, chunk.validBegin ≤ i ∧ i < chunk.validEnd ↔
    (0 ≤ i ∧ i < valid) ∧ chunk.paddedBegin ≤ i + lo ∧ i + lo < chunk.paddedEnd
  first : 0 ≤ chunk.paddedBegin ∧ chunk.paddedBegin < paddedOuter
  offset : chunk.byteOffset = chunk.paddedBegin * rowBytes
  bytes : (chunk.bytes : Int) = (chunk.paddedEnd - chunk.paddedBegin) * rowBytes

/-- The rows a schedule is cut from. -/
structure Rows (lo valid rowBytes rowsPerChunk paddedOuter : Int) : Prop where
  lo_nonneg : 0 ≤ lo
  valid_pos : 0 < valid
  inside : lo + valid ≤ paddedOuter
  row_pos : 0 < rowBytes
  rows_pos : 0 < rowsPerChunk

/-- The rows together have a size. -/
structure Cuttable (lo valid rowBytes rowsPerChunk paddedOuter : Int) : Prop extends
    Rows lo valid rowBytes rowsPerChunk paddedOuter where
  fits : FitsI64 (paddedOuter * rowBytes)

theorem Cuttable.fits_rows (h : Cuttable lo valid rowBytes rowsPerChunk paddedOuter) {rows : Int}
    (hrows : 0 ≤ rows) (hle : rows ≤ paddedOuter) :
    FitsI64 rows ∧ FitsI64 (rows * rowBytes) := by
  have hmul := mul_le_mul_of_nonneg_right hle h.row_pos.le
  have hself : rows ≤ rows * rowBytes := le_mul_of_one_le_right hrows h.row_pos
  have hfits := h.fits.2
  unfold FitsI64
  omega

theorem Rows.cut (h : Rows lo valid rowBytes rowsPerChunk paddedOuter) (hpb : 0 ≤ pb)
    (hlt : pb < paddedOuter) {chunk : Chunk}
    (hrun : (cutChunk lo valid rowBytes rowsPerChunk paddedOuter pb : Outcome ε _) = .ok chunk) :
    chunk.Cut lo valid rowBytes paddedOuter ∧ chunk.paddedBegin = pb ∧ pb < chunk.paddedEnd ∧
      chunk.paddedEnd ≤ paddedOuter ∧ chunk.paddedEnd ≤ pb + rowsPerChunk := by
  obtain ⟨hlo, hvalid, hinside, hrow, hrpc⟩ := h
  simp only [cutChunk, bind_ok_iff, sub64_eq_ok, add64_eq_ok, mul64_eq_ok, pure_eq,
    Outcome.ok.injEq] at hrun
  obtain ⟨_, ⟨-, rfl⟩, _, ⟨-, hend⟩, _, ⟨-, rfl⟩, _, ⟨-, rfl⟩, _, ⟨-, rfl⟩, _, ⟨-, rfl⟩,
    _, ⟨hbytes, rfl⟩, rfl⟩ := hrun
  rename_i pe
  have hpos : pb < pe := by omega
  refine ⟨⟨?_, ?_, ⟨hpb, hlt⟩, rfl, ?_⟩, rfl, hpos, show pe ≤ paddedOuter by omega,
    show pe ≤ pb + rowsPerChunk by omega⟩
  · simp only
    omega
  · intro i
    simp only
    omega
  · exact toSize_of_nonneg (mul_nonneg (by omega) hrow.le) hbytes

theorem Rows.cuts (h : Rows lo valid rowBytes rowsPerChunk paddedOuter) {fuel : Nat}
    (hpb : 0 ≤ pb) (hle : pb ≤ paddedOuter) (hfuel : paddedOuter ≤ pb + fuel)
    {chunks : List Chunk}
    (hrun : (cutChunks lo valid rowBytes rowsPerChunk paddedOuter fuel pb : Outcome ε _) =
      .ok chunks) : Tiles (pb * rowBytes) chunks (paddedOuter * rowBytes) ∧
      (pb < paddedOuter → chunks ≠ []) ∧
      ∀ chunk ∈ chunks, chunk.Cut lo valid rowBytes paddedOuter ∧
        chunk.paddedEnd ≤ chunk.paddedBegin + rowsPerChunk := by
  induction fuel generalizing pb chunks with
  | zero =>
      obtain rfl : pb = paddedOuter := by omega
      cases hrun
      exact ⟨rfl, fun hlt => absurd hlt (lt_irrefl pb), by simp⟩
  | succ fuel ih =>
      rw [cutChunks] at hrun
      by_cases hlt : pb < paddedOuter
      · simp only [if_pos hlt, bind_ok_iff, pure_eq, Outcome.ok.injEq] at hrun
        obtain ⟨chunk, hchunk, rest, hrest, rfl⟩ := hrun
        obtain ⟨hcut, hbegin, hpos, hend, hrows⟩ := h.cut hpb hlt hchunk
        obtain ⟨htiles, -, hall⟩ := ih (by omega) hend (by omega) hrest
        have hbytes := hcut.bytes
        have hoffset := hcut.offset
        rw [hbegin] at hbytes hoffset
        have hsum : pb * rowBytes + chunk.bytes = chunk.paddedEnd * rowBytes := by
          rw [hbytes]
          ring
        have hnonempty : 0 < (chunk.paddedEnd - pb) * rowBytes := mul_pos (by omega) h.row_pos
        refine ⟨⟨hoffset, by omega, by rwa [hsum]⟩, by simp, ?_⟩
        intro other hmem
        rcases List.mem_cons.mp hmem with rfl | htail
        · exact ⟨hcut, by omega⟩
        · exact hall other htail
      · rw [if_neg hlt] at hrun
        cases hrun
        obtain rfl : pb = paddedOuter := by omega
        exact ⟨rfl, fun hlt => absurd hlt (lt_irrefl pb), by simp⟩

theorem safe_cutChunk (h : Cuttable lo valid rowBytes rowsPerChunk paddedOuter) (hpb : 0 ≤ pb)
    (hlt : pb < paddedOuter) :
    (cutChunk lo valid rowBytes rowsPerChunk paddedOuter pb : Outcome ε Chunk).Safe := by
  obtain ⟨hlo, hvalid, hinside, hrow, hrpc⟩ := h.toRows
  have hpe : pb + min rowsPerChunk (paddedOuter - pb) ≤ paddedOuter := by omega
  have hpos : pb < pb + min rowsPerChunk (paddedOuter - pb) := by omega
  generalize hend : pb + min rowsPerChunk (paddedOuter - pb) = pe at hpe hpos
  have hfits : ∀ rows, 0 ≤ rows → rows ≤ paddedOuter → FitsI64 rows := fun rows h0 hle =>
    (h.fits_rows h0 hle).1
  have hbytes := (h.fits_rows (show 0 ≤ pe - pb by omega) (by omega)).2
  have hfits' : ∀ rows, -paddedOuter ≤ rows → rows ≤ paddedOuter → FitsI64 rows := by
    intro rows h0 hle
    have := hfits paddedOuter (by omega) (le_refl _)
    unfold FitsI64 at this ⊢
    omega
  unfold cutChunk
  refine sat_exact64_bind (hfits (paddedOuter - pb) (by omega) (by omega)) ?_
  refine sat_exact64_bind (by rw [hend]; exact hfits pe (by omega) (by omega)) ?_
  rw [hend]
  refine sat_exact64_bind (hfits' (pb - lo) (by omega) (by omega)) ?_
  refine sat_exact64_bind (hfits' (pe - lo) (by omega) (by omega)) ?_
  refine sat_exact64_bind (h.fits_rows hpb hlt.le).2 ?_
  refine sat_exact64_bind (hfits (pe - pb) (by omega) (by omega)) ?_
  refine sat_exact64_bind hbytes ?_
  trivial

theorem safe_cutChunks (h : Cuttable lo valid rowBytes rowsPerChunk paddedOuter) {fuel : Nat}
    (hpb : 0 ≤ pb) :
    (cutChunks lo valid rowBytes rowsPerChunk paddedOuter fuel pb : Outcome ε _).Safe := by
  induction fuel generalizing pb with
  | zero => trivial
  | succ fuel ih =>
      rw [cutChunks]
      by_cases hlt : pb < paddedOuter
      · rw [if_pos hlt, Safe, sat_bind]
        refine (safe_cutChunk h hpb hlt).sat_of_ok fun chunk hchunk => ?_
        obtain ⟨-, -, hpos, -⟩ := h.cut hpb hlt hchunk
        exact safe_bind (ih (by omega)) fun _ => trivial
      · rw [if_neg hlt]
        trivial

theorem sat_cutChunks (h : Cuttable lo valid rowBytes rowsPerChunk paddedOuter) {fuel : Nat}
    (hpb : 0 ≤ pb) (hle : pb ≤ paddedOuter) (hfuel : paddedOuter ≤ pb + fuel) :
    (cutChunks lo valid rowBytes rowsPerChunk paddedOuter fuel pb : Outcome ε _).Sat
      fun chunks => Tiles (pb * rowBytes) chunks (paddedOuter * rowBytes) ∧
        (pb < paddedOuter → chunks ≠ []) ∧
        ∀ chunk ∈ chunks, chunk.Cut lo valid rowBytes paddedOuter ∧
          chunk.paddedEnd ≤ chunk.paddedBegin + rowsPerChunk :=
  (safe_cutChunks h hpb).sat_of_ok fun _ hrun => h.cuts hpb hle hfuel hrun

end Cut

/-! ### The planner -/

section Plan

variable {ε : Type} {bound : BoundPlan} {axis : WalkAxis} {axes : List WalkAxis}

theorem innerSpanFrom_eq {targets : List Strides.Axis} (hforward : Strides.Forward targets)
    (hextents : ∀ target ∈ targets, FitsI64 target.extent) {span : Int} (hspan : 0 ≤ span)
    (hfits : FitsI64 (span + Strides.reach targets)) :
    (innerSpanFrom (targets.map fun target => (target.extent, target.stride)) span :
      Outcome ε Int) = .ok (span + Strides.reach targets) := by
  induction targets generalizing span with
  | nil => exact congrArg Outcome.ok (add_zero span).symm
  | cons target rest ih =>
      rw [Strides.forward_cons] at hforward
      have hrest := hforward.2.reach_nonneg
      have hextent := hextents target (by simp)
      have hstep : 0 ≤ (target.extent - 1) * target.stride :=
        mul_nonneg (by omega) hforward.1.2
      have hsmall : ∀ x : Int, 0 ≤ x → x ≤ span + Strides.reach (target :: rest) → FitsI64 x := by
        intro x hx hle
        unfold FitsI64 at hfits ⊢
        omega
      rw [Strides.reach] at hsmall hfits
      have hlast : FitsI64 (target.extent - 1) := by
        unfold FitsI64 at hextent ⊢
        omega
      have hmul : FitsI64 ((target.extent - 1) * target.stride) := hsmall _ hstep (by omega)
      have hsum : FitsI64 (span + (target.extent - 1) * target.stride) :=
        hsmall _ (by omega) (by omega)
      have hnext : 0 ≤ span + (target.extent - 1) * target.stride := by omega
      rw [List.map_cons, innerSpanFrom, sub64, exact64_of_fits hlast, ok_bind, mul64,
        exact64_of_fits hmul, ok_bind, add64, exact64_of_fits hsum, ok_bind,
        ih hforward.2 (fun t ht => hextents t (by simp [ht])) hnext (by rwa [add_assoc]),
        Strides.reach, add_assoc]

theorem innerSpanFrom_eq_ok {entries : List (Int × Int)} {span result : Int}
    (hrun : (innerSpanFrom entries span : Outcome ε Int) = .ok result) :
    result = span + Strides.reach (entries.map fun entry => ⟨entry.1, entry.2⟩) := by
  induction entries generalizing span with
  | nil =>
      cases hrun
      simp [Strides.reach]
  | cons entry rest ih =>
      simp only [innerSpanFrom, bind_ok_iff, sub64_eq_ok, mul64_eq_ok, add64_eq_ok] at hrun
      obtain ⟨_, ⟨-, rfl⟩, _, ⟨-, rfl⟩, _, ⟨-, rfl⟩, hrest⟩ := hrun
      rw [ih hrest, List.map_cons, Strides.reach, add_assoc]

/-- The outermost axis of the walk has the outer pads. -/
theorem attachRegions_outer (axis : WalkAxis) (axes : List WalkAxis) (regions : List PadRegion) :
    ∃ axes', attachRegions (axis :: axes) regions =
      { axis with
        lo := (outerPad (axis.lo, axis.hi) regions).1
        hi := (outerPad (axis.lo, axis.hi) regions).2 } :: axes' := by
  induction regions generalizing axis axes with
  | nil => exact ⟨axes, rfl⟩
  | cons region rest ih =>
      rw [attachRegions, outerPad, List.foldl_cons, List.foldl_cons]
      cases hregion : region.axis with
      | zero => exact ih (region.attach axis) axes
      | succ k => exact ih axis (axes.modify k region.attach)

section Rows

variable {rowBytes r p a b : Int}

/-- A row that a byte of row `p` is at or after. -/
theorem le_row_iff (hr : 0 ≤ r ∧ r < rowBytes) : a * rowBytes ≤ p * rowBytes + r ↔ a ≤ p := by
  have hpos : 0 ≤ rowBytes := by omega
  constructor
  · intro h
    by_contra hlt
    have hstep := mul_le_mul_of_nonneg_right (Int.add_one_le_of_lt (not_le.mp hlt)) hpos
    rw [add_mul, one_mul] at hstep
    omega
  · intro h
    have hstep := mul_le_mul_of_nonneg_right h hpos
    omega

/-- A row that a byte of row `p` is before. -/
theorem row_lt_iff (hr : 0 ≤ r ∧ r < rowBytes) : p * rowBytes + r < b * rowBytes ↔ p < b := by
  rw [← not_le, le_row_iff hr, not_le]

end Rows

variable {chunk : Chunk}

/-- The head and the rest of a coordinate tuple. -/
theorem offset_split (h : bound.Admitted) (haxes : bound.walkAxes = axis :: axes)
    {coords : List Int} (hbox : Strides.InBox bound.targetAxes coords) :
    (0 ≤ coords.headI ∧ coords.headI < axis.padded) ∧ ∃ inner,
      Strides.offset bound.targetAxes coords = coords.headI * axis.dstStride + inner ∧
        0 ≤ inner ∧ inner ≤ Strides.reach (axes.map WalkAxis.target) := by
  have hforward := h.forward
  unfold BoundPlan.targetAxes at hbox hforward ⊢
  rw [haxes, List.map_cons] at hbox hforward ⊢
  rw [Strides.forward_cons] at hforward
  cases hbox with
  | cons hp hrest =>
      exact ⟨hp, _, rfl, Strides.offset_nonneg hforward.2 hrest,
        Strides.offset_le_reach hforward.2 hrest⟩

theorem Chunk.Cut.sound (hcut : chunk.Cut axis.lo axis.extent
    (axis.dstStride * bound.elementSize) axis.padded) (h : bound.Admitted)
    (haxes : bound.walkAxes = axis :: axes)
    (hdisjoint : Strides.reach (axes.map WalkAxis.target) + 1 ≤ axis.dstStride) :
    chunk.Sound bound axis := by
  have hstride : 0 ≤ axis.dstStride := h.writes axis (by rw [haxes]; simp)
  refine ⟨hcut.range, hcut.rows, hcut.first, by rw [hcut.offset, mul_assoc], ?_, ?_⟩
  · have hrows : 0 ≤ (chunk.paddedEnd - chunk.paddedBegin) * axis.dstStride := by
      have hbytes := hcut.bytes
      rw [← mul_assoc] at hbytes
      refine nonneg_of_mul_nonneg_left (b := (bound.elementSize : Int)) ?_
        (by exact_mod_cast h.size_pos)
      omega
    refine ⟨((chunk.paddedEnd - chunk.paddedBegin) * axis.dstStride).toNat, ?_⟩
    zify
    rw [Int.toNat_of_nonneg hrows, hcut.bytes, mul_assoc]
  intro coords j hbox hj hjlt
  obtain ⟨-, inner, hoffset, hinner0, hinner⟩ := offset_split h haxes hbox
  have hle : (inner + 1) * bound.elementSize ≤ axis.dstStride * bound.elementSize :=
    mul_le_mul_of_nonneg_right (by omega) (by omega)
  have hpos : 0 ≤ inner * bound.elementSize := mul_nonneg hinner0 (by omega)
  rw [add_mul, one_mul] at hle
  have hrow : 0 ≤ inner * bound.elementSize + j ∧
      inner * bound.elementSize + j < axis.dstStride * bound.elementSize := by omega
  have hbyte : Strides.offset bound.targetAxes coords * bound.elementSize + j =
      coords.headI * (axis.dstStride * bound.elementSize) + (inner * bound.elementSize + j) := by
    rw [hoffset]
    ring
  have hend : chunk.byteOffset + chunk.bytes =
      chunk.paddedEnd * (axis.dstStride * bound.elementSize) := by
    rw [hcut.offset, hcut.bytes]
    ring
  rw [Chunk.Holds, hend, hcut.offset, hbyte, le_row_iff hrow, row_lt_iff hrow]

theorem wholeSchedule_sound (h : bound.Admitted) (haxes : bound.walkAxes = axis :: axes)
    (rowBytes : Int) :
    (wholeSchedule bound axis.lo axis.extent rowBytes axis.padded).Sound bound axis := by
  have hpad := h.padded axis (by rw [haxes]; simp)
  have htotal : 0 < bound.totalBytes := by
    rw [h.total]
    exact mul_pos (by have := h.cells_pos; omega) (by exact_mod_cast h.size_pos)
  have hsize : (toSize bound.totalBytes : Int) = bound.totalBytes :=
    toSize_of_nonneg htotal.le h.fits
  refine ⟨by simp [wholeSchedule], ⟨rfl, by simp only; omega, by rw [Tiles, hsize, zero_add]⟩,
    ?_, by simp [wholeSchedule]⟩
  intro chunk hmem
  obtain rfl := List.mem_singleton.mp hmem
  have hrows : 0 < axis.padded := by
    unfold WalkAxis.padded
    omega
  unfold WalkAxis.padded
  refine ⟨by simp only; omega, fun i => by simp only; omega, ⟨le_refl 0, hrows⟩, by simp, ?_, ?_⟩
  · refine ⟨bound.cells.toNat, ?_⟩
    zify
    rw [Int.toNat_of_nonneg h.cells_inBytes.1, hsize, h.total]
  intro coords j hbox hj hjlt
  obtain ⟨hhead, -⟩ := offset_split h haxes hbox
  have hcell := h.bijOn_offset.mapsTo hbox
  have hlo : 0 ≤ Strides.offset bound.targetAxes coords * bound.elementSize :=
    mul_nonneg hcell.1 (by omega)
  have hhi := mul_le_mul_of_nonneg_right (Int.add_one_le_of_lt hcell.2)
    (Int.natCast_nonneg bound.elementSize)
  rw [add_mul, one_mul, ← h.total] at hhi
  unfold WalkAxis.padded at hhead
  simp only [Chunk.Holds, hsize, zero_add]
  exact ⟨fun _ => hhead, fun _ => by omega⟩

theorem sat_chunkTarget {nBuffers : Int} (hbuffers : 0 ≤ nBuffers ∧ nBuffers < 2 ^ 31)
    (totalBytes : Int) (chunkSizeOverride : Nat) :
    (chunkTarget totalBytes nBuffers chunkSizeOverride : Outcome ε Nat).Safe := by
  unfold chunkTarget
  refine sat_ite (fun _ => trivial) fun _ => sat_exactSize_bind ?_ trivial
  unfold FitsSize kChunksPerBuffer toSize
  omega

theorem rowsOfTarget_bounds {paddedOuter : Int} (hpos : 0 < paddedOuter)
    (hfits : FitsI64 paddedOuter) (target : Nat) (rowBytes : Int) :
    0 < rowsOfTarget target rowBytes paddedOuter ∧
      rowsOfTarget target rowBytes paddedOuter ≤ paddedOuter := by
  have hsize := toSize_of_nonneg hpos.le hfits
  unfold rowsOfTarget
  split
  · rw [hsize]
    omega
  · exact ⟨hpos, le_refl _⟩

theorem inner_bounds (h : bound.Admitted) (haxes : bound.walkAxes = axis :: axes) :
    0 ≤ Strides.reach (axes.map WalkAxis.target) ∧
      Strides.reach (axes.map WalkAxis.target) < bound.cells := by
  have hforward := h.forward
  have hdense := h.dense
  unfold BoundPlan.targetAxes at hforward hdense
  rw [haxes, List.map_cons] at hforward hdense
  rw [Strides.forward_cons] at hforward
  rw [Strides.reach] at hdense
  have hstep : 0 ≤ (axis.target.extent - 1) * axis.target.stride :=
    mul_nonneg (by omega) hforward.1.2
  exact ⟨hforward.2.reach_nonneg, by omega⟩

theorem fits_of_le_cells (h : bound.Admitted) {x : Int} (hx : 0 ≤ x) (hle : x ≤ bound.cells) :
    FitsI64 x :=
  (h.cells_inBytes.mono hx hle).fits h.size_pos

/-- The reach of the inner axes under extents of at most the padded ones. -/
theorem innerSpan_eq (h : bound.Admitted) (haxes : bound.walkAxes = axis :: axes)
    {f : WalkAxis → Int} (hf : ∀ a ∈ bound.walkAxes, 1 ≤ f a ∧ f a ≤ a.padded) :
    (innerSpan (bound.walkAxes.map f) bound.dstStrides : Outcome ε Int) =
        .ok (Strides.reach (axes.map fun a => ⟨f a, a.dstStride⟩)) ∧
      FitsI64 (Strides.reach (axes.map fun a => ⟨f a, a.dstStride⟩) + 1) := by
  obtain ⟨-, hinner⟩ := inner_bounds h haxes
  have hmem : ∀ a ∈ axes, a ∈ bound.walkAxes := fun a ha => by rw [haxes]; simp [ha]
  have hforward : Strides.Forward (axes.map fun a => ⟨f a, a.dstStride⟩) := by
    intro target htarget
    obtain ⟨a, ha, rfl⟩ := List.mem_map.mp htarget
    exact ⟨(hf a (hmem a ha)).1, h.writes a (hmem a ha)⟩
  have hreach : Strides.reach (axes.map fun a => (⟨f a, a.dstStride⟩ : Strides.Axis)) ≤
      Strides.reach (axes.map WalkAxis.target) := by
    have hwrites : ∀ a ∈ axes, 0 ≤ a.dstStride := fun a ha => h.writes a (hmem a ha)
    have hle : ∀ a ∈ axes, f a ≤ a.padded := fun a ha => (hf a (hmem a ha)).2
    clear haxes hmem hforward hinner
    induction axes with
    | nil => exact le_refl 0
    | cons a rest ih =>
        rw [List.forall_mem_cons] at hwrites hle
        exact add_le_add (mul_le_mul_of_nonneg_right (Int.sub_le_sub_right hle.1 1) hwrites.1)
          (ih hwrites.2 hle.2)
  have hzip : ((bound.walkAxes.map f).zip bound.dstStrides).tail =
      (axes.map fun a => (⟨f a, a.dstStride⟩ : Strides.Axis)).map fun target =>
        (target.extent, target.stride) := by
    rw [← (BoundPlan.map_walkAxes h.srcRank h.dstRank).2.2, haxes, List.map_cons, List.map_cons,
      List.zip_cons_cons, List.tail_cons, List.zip_map', List.map_map]
    rfl
  have hinner0 := hforward.reach_nonneg
  have hextents : ∀ target ∈ axes.map (fun a => (⟨f a, a.dstStride⟩ : Strides.Axis)),
      FitsI64 target.extent := by
    intro target htarget
    obtain ⟨a, ha, rfl⟩ := List.mem_map.mp htarget
    obtain ⟨hpos, hle⟩ := hf a (hmem a ha)
    have hcells : a.padded ≤ bound.cells :=
      h.forward.extent_le_cells (List.mem_map_of_mem (f := WalkAxis.target) (hmem a ha))
    exact fits_of_le_cells h (by simp only; omega) (by simp only; omega)
  refine ⟨?_, fits_of_le_cells h (by omega) (by omega)⟩
  rw [innerSpan, hzip, innerSpanFrom_eq hforward hextents (le_refl 0)
    (by rw [zero_add]; exact fits_of_le_cells h hinner0 (by omega)), zero_add]

theorem padded_bounds (h : bound.Admitted) :
    ∀ a ∈ bound.walkAxes, 1 ≤ a.padded ∧ a.padded ≤ a.padded := by
  intro a ha
  obtain ⟨hextent, hlo, hhi⟩ := h.padded a ha
  unfold WalkAxis.padded
  omega

theorem fetch_stride (h : bound.Admitted) (haxes : bound.walkAxes = axis :: axes) :
    (fetch bound.dstStrides 0 : Outcome ε Int) = .ok axis.dstStride := by
  rw [fetch_eq_ok, ← (BoundPlan.map_walkAxes h.srcRank h.dstRank).2.2, haxes]
  rfl

/-- The schedule of an admitted plan; disjoint rows must cover the destination. -/
theorem sat_planChunks (h : bound.Admitted) (haxes : bound.walkAxes = axis :: axes)
    (hrow : FitsI64 (axis.dstStride * bound.elementSize)) {nBuffers : Int}
    (hbuffers : nBuffers < 2 ^ 31) (chunkSizeOverride : Nat)
    (hcovered : Strides.reach (axes.map WalkAxis.target) + 1 ≤ axis.dstStride →
      axis.padded * (axis.dstStride * bound.elementSize) = bound.totalBytes) :
    (planChunks bound nBuffers chunkSizeOverride : Outcome ε _).Sat
      fun schedule => schedule.Sound bound axis := by
  have hmem : axis ∈ bound.walkAxes := by rw [haxes]; simp
  have hpad := h.padded axis hmem
  have houter : outerPad (0, 0) bound.padRegions = (axis.lo, axis.hi) := by
    obtain ⟨bare, rest, hbare⟩ : ∃ bare rest, bound.bareAxes = bare :: rest ∧
        bare.lo = 0 ∧ bare.hi = 0 := by
      cases hbare : bound.bareAxes with
      | nil =>
          have hnil := (BoundPlan.map_bareAxes h.srcRank h.dstRank).1
          rw [hbare] at hnil
          exact absurd hnil.symm h.rank
      | cons bare rest =>
          have hmem : bare ∈ bound.bareAxes := by rw [hbare]; simp
          obtain ⟨entry, -, rfl⟩ := List.mem_map.mp hmem
          exact ⟨_, rest, rfl, rfl, rfl⟩
    obtain ⟨axes', hattach⟩ := attachRegions_outer bare rest bound.padRegions
    rw [BoundPlan.walkAxes, hbare.1, hattach, hbare.2.1, hbare.2.2] at haxes
    injection haxes with haxis
    rw [← haxis]
  have hpadded : axis.padded ≤ bound.cells :=
    h.forward.extent_le_cells (List.mem_map_of_mem (f := WalkAxis.target) hmem)
  have hsum : axis.extent + axis.lo + axis.hi = axis.padded := rfl
  unfold planChunks
  rw [h.widened, ok_bind, fetch_stride h haxes, ok_bind]
  refine sat_exact64_bind hrow ?_
  rw [h.fetch_outer haxes, ok_bind, houter]
  refine sat_exact64_bind (fits_of_le_cells h (by omega) (by simp only; omega)) ?_
  refine sat_exact64_bind (fits_of_le_cells h (by simp only; omega) (by simp only; omega)) ?_
  obtain ⟨hspan, hnext⟩ := innerSpan_eq (ε := ε) h haxes (padded_bounds h)
  rw [hspan, ok_bind]
  refine sat_exact64_bind hnext ?_
  change Sat (if ¬ Strides.reach (axes.map WalkAxis.target) + 1 ≤ _ ∨ _ then _ else _) _
  simp only [hsum]
  refine sat_ite (fun _ => wholeSchedule_sound h haxes _) fun hrows => ?_
  have hdisjoint : Strides.reach (axes.map WalkAxis.target) + 1 ≤ axis.dstStride := by
    by_contra hnot
    exact hrows (.inl hnot)
  have hbytes := hcovered hdisjoint
  have hinner0 := (inner_bounds h haxes).1
  have hrowPos : 0 < axis.dstStride * bound.elementSize :=
    mul_pos (by omega) (by exact_mod_cast h.size_pos)
  have hfits : FitsI64 axis.padded := fits_of_le_cells h (by omega) hpadded
  unfold planRows
  rw [sat_bind]
  refine (sat_chunkTarget (by omega) _ _).mono fun target _ => ?_
  obtain ⟨hrpc, hrpcle⟩ := rowsOfTarget_bounds (show 0 < axis.padded by omega) hfits target
    (axis.dstStride * bound.elementSize)
  generalize rowsOfTarget target (axis.dstStride * bound.elementSize) axis.padded = rowsPerChunk
    at hrpc hrpcle
  have hcut : Cuttable axis.lo axis.extent (axis.dstStride * bound.elementSize) rowsPerChunk
      axis.padded :=
    ⟨⟨hpad.2.1, by omega, by omega, hrowPos, hrpc⟩, by rw [hbytes]; exact h.fits⟩
  rw [sat_bind]
  refine (sat_cutChunks hcut (le_refl 0) (by omega) (by omega)).mono fun chunks hchunks => ?_
  obtain ⟨htiles, hnonempty, hall⟩ := hchunks
  have hmax := (hcut.fits_rows hrpc.le hrpcle).2
  refine sat_exact64_bind hmax ?_
  rw [pure_eq, sat_ok]
  refine ⟨hnonempty (by omega), ?_, fun chunk hmem => (hall chunk hmem).1.sound h haxes hdisjoint,
    fun chunk hmem => ?_⟩
  · rwa [zero_mul, hbytes] at htiles
  · obtain ⟨hcutc, hend⟩ := hall chunk hmem
    have hle : (chunk.paddedEnd - chunk.paddedBegin) * (axis.dstStride * bound.elementSize) ≤
        rowsPerChunk * (axis.dstStride * bound.elementSize) :=
      mul_le_mul_of_nonneg_right (by omega) hrowPos.le
    have hsize := toSize_of_nonneg (mul_nonneg hrpc.le hrowPos.le) hmax
    have hb := hcutc.bytes
    simp only
    omega

end Plan

end SymReloc
