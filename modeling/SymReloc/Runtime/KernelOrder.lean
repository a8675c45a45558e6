import SymReloc.Runtime.KernelRuns

/-!
# The order of the kernels

Every kernel writes the elements of its rows, each with the value of the walker: the
contiguous kernels in the walker's order, the transpose tile by tile, the strided runs
row by row or column by column.
-/

namespace SymReloc

open Outcome Writes

/-! ### Loops -/

namespace Outcome

variable {ε α β γ : Type}

theorem mapEach_of_ok {values : List α} {body : α → Outcome ε β} {f : α → β}
    (h : ∀ value ∈ values, body value = .ok (f value)) :
    mapEach values body = .ok (values.map f) := by
  induction values with
  | nil => rfl
  | cons value rest ih =>
      rw [List.forall_mem_cons] at h
      rw [mapEach, h.1, ok_bind, ih h.2, ok_bind, pure_eq, List.map_cons]

theorem mapEach_congr {values : List α} {body body' : α → Outcome ε β}
    (h : ∀ value ∈ values, body value = body' value) :
    mapEach values body = mapEach values body' := by
  induction values with
  | nil => rfl
  | cons value rest ih =>
      rw [List.forall_mem_cons] at h
      rw [mapEach, mapEach, h.1, ih h.2]

theorem mapEach_map (f : α → β) (values : List α) (body : β → Outcome ε γ) :
    mapEach (values.map f) body = mapEach values fun value => body (f value) := by
  induction values with
  | nil => rfl
  | cons value rest ih => rw [List.map_cons, mapEach, mapEach, ih]

theorem mapEach_append (values values' : List α) (body : α → Outcome ε β) :
    mapEach (values ++ values') body = (do
      let results ← mapEach values body
      let results' ← mapEach values' body
      pure (results ++ results')) := by
  induction values with
  | nil =>
      rw [List.nil_append, mapEach, ok_bind]
      cases mapEach values' body <;> rfl
  | cons value rest ih =>
      rw [List.cons_append, mapEach, mapEach, ih]
      cases body value with
      | ok result =>
          rw [ok_bind, ok_bind]
          cases mapEach rest body with
          | ok results => cases mapEach values' body <;> rfl
          | error reason => rfl
          | fault kind => rfl
      | error reason => rfl
      | fault kind => rfl

/-- Two nested loops, as one over the pairs. -/
theorem mapEach_flatMap (values : List α) (inner : α → List β) (body : β → Outcome ε γ) :
    (do
      let runs ← mapEach values fun value => mapEach (inner value) body
      pure runs.flatten) = mapEach (values.flatMap inner) body := by
  induction values with
  | nil => rfl
  | cons value rest ih =>
      rw [List.flatMap_cons, mapEach_append, ← ih, mapEach]
      cases mapEach (inner value) body with
      | ok results =>
          rw [ok_bind, ok_bind]
          cases mapEach rest fun value => mapEach (inner value) body with
          | ok runs => rfl
          | error reason => rfl
          | fault kind => rfl
      | error reason => rfl
      | fault kind => rfl

/-- A loop whose runs are all known, flattened. -/
theorem flatten_of_ok {values : List α} {body : α → Outcome ε (List β)} {f : α → List β}
    (h : ∀ value ∈ values, body value = .ok (f value)) :
    (do
      let runs ← mapEach values body
      pure runs.flatten) = .ok (values.flatMap f) := by
  rw [mapEach_of_ok h, ok_bind, pure_eq, List.flatMap_def]

end Outcome

/-! ### The elements of a range of rows -/

/-- The source and destination offsets of a range of rows, in the walker's order. -/
def rangedVisits : List WalkAxis → Int → Int → Int → Int → List (Int × Int)
  | [], _, _, _, _ => []
  | axis :: rest, iBegin, iEnd, src, dst => (intRange iBegin iEnd).flatMap fun i =>
      visits rest (src + i * axis.srcStride) (dst + (i + axis.lo) * axis.dstStride)

theorem rangedVisits_full (axis : WalkAxis) (rest : List WalkAxis) (src dst : Int) :
    rangedVisits (axis :: rest) 0 axis.extent src dst = visits (axis :: rest) src dst := rfl

theorem rangedVisits_single (axis : WalkAxis) (iBegin iEnd src dst : Int) :
    rangedVisits [axis] iBegin iEnd src dst = (intRange iBegin iEnd).map fun i =>
      (src + i * axis.srcStride, dst + (i + axis.lo) * axis.dstStride) := by
  rw [List.map_eq_flatMap]
  rfl

/-- The walk of one element after the other. -/
def genericMode : RunMode := ⟨false, false⟩

theorem walkElements_generic (state : WalkState) (aligned : Bool) (axes : List WalkAxis)
    (iBegin iEnd src dst : Int) :
    walkElements state genericMode aligned axes iBegin iEnd src dst =
      mapEach (rangedVisits axes iBegin iEnd src dst) fun move => element state move.1 move.2 := by
  induction axes generalizing iBegin iEnd src dst with
  | nil => rfl
  | cons axis rest ih =>
      cases rest with
      | nil =>
          rw [walkElements, rangedVisits_single, mapEach_map]
          simp [walkRun, genericMode]
      | cons next rest =>
          rw [walkElements, rangedVisits, ← mapEach_flatMap]
          simp only [ih, rangedVisits_full]

/-! ### Kernels as lists -/

namespace WalkState

variable {state : WalkState} {inType outType : ElementType}

/-- One element with the kernels' value. -/
def move (state : WalkState) (offsets : Int × Int) : CellWrite :=
  state.target offsets.2 (state.loadBits offsets.1)

theorem loadBits_lt (state : WalkState) (offset : Int) :
    state.loadBits offset < 2 ^ (8 * state.widthFrom) :=
  Nat.mod_lt _ (Nat.pow_pos (by decide))

theorem Buffered.run_eq (h : state.Buffered inType outType) {count src dst : Int} (hdst : 0 ≤ dst)
    (hcount : 0 ≤ count) :
    state.stages (fun i => state.loadBits (src + i)) count dst =
      .ok (((intRange 0 count).map fun i => (src + i, dst + i)).map state.move) := by
  rw [h.stages_eq _ hdst hcount, List.map_map]
  rfl

/-- The direct conversion of the one cast from f32 to f16. -/
structure Narrows (state : WalkState) : Prop where
  range : ∃ stage k, state.range = [(stage, k)] ∧ stage.transform = .cast ∧
    isFloatWidth stage.input 32 ∧ isFloatWidth stage.output 16
  width : state.widthFrom = 4

theorem Narrows.convertRun_eq (h : state.Narrows) (count src dst : Int) :
    state.convertRun (fun i => state.loadBits (src + i)) count dst =
      ((intRange 0 count).map fun i => (src + i, dst + i)).map state.move := by
  obtain ⟨⟨stage, k, hrange, hcast, hin, hout⟩, hwidth⟩ := h
  rw [convertRun, List.map_map]
  refine List.map_congr_left fun i _ => ?_
  have hlt := state.loadBits_lt (src + i)
  rw [hwidth] at hlt
  have hbf : ¬ isBFloat16 stage.output := by
    intro hbf
    have := hout.1.symm.trans hbf.1
    cases this
  simp only [Function.comp_apply, move, target, hrange, Program.rangeValue, List.foldl_cons,
    List.foldl_nil, applyStage, hcast, if_pos hin, if_neg hbf]
  rw [Nat.mod_eq_of_lt (show state.loadBits (src + i) < 2 ^ 32 from hlt)]

/-- A unit-stride innermost axis is a contiguous run. -/
theorem rangedVisits_unit {axis : WalkAxis} (hsrc : axis.srcStride = 1) (hdst : axis.dstStride = 1)
    (iBegin iEnd src dst : Int) :
    rangedVisits [axis] iBegin iEnd src dst = (intRange 0 (iEnd - iBegin)).map fun i =>
      (src + iBegin + i, dst + iBegin + axis.lo + i) := by
  have hend : iEnd = iBegin + (iEnd - iBegin) := by ring
  rw [rangedVisits_single, hend, intRange_shift, List.map_map, ← hend]
  refine List.map_congr_left fun i _ => ?_
  simp only [Function.comp_apply, hsrc, hdst, mul_one, Prod.mk.injEq]
  constructor <;> ring

/-- The contiguous kernels write the walker's elements in its order. -/
theorem Buffered.walkElements_eq (h : state.Buffered inType outType) {mode : RunMode}
    (hmode : mode.bufferedRun = true) (hnarrow : mode.narrowRun = true → state.Narrows)
    (aligned : Bool) {axes : List WalkAxis}
    (haxes : ∀ axis ∈ axes, 0 ≤ axis.extent ∧ 0 ≤ axis.lo ∧ 0 ≤ axis.dstStride)
    (hlast : ∀ axis ∈ axes.getLast?, axis.srcStride = 1 ∧ axis.dstStride = 1)
    {iBegin iEnd src dst : Int} (hbegin : 0 ≤ iBegin) (hle : iBegin ≤ iEnd) (hdst : 0 ≤ dst) :
    walkElements state mode aligned axes iBegin iEnd src dst =
      .ok ((rangedVisits axes iBegin iEnd src dst).map state.move) := by
  induction axes generalizing iBegin iEnd src dst with
  | nil => rfl
  | cons axis rest ih =>
      rw [List.forall_mem_cons] at haxes
      cases rest with
      | nil =>
          obtain ⟨hsrc, hdst'⟩ := hlast axis (by simp)
          rw [walkElements, walkRun, rangedVisits_unit hsrc hdst']
          by_cases hdirect : mode.narrowRun = true ∧ aligned = true
          · rw [if_pos hdirect, (hnarrow hdirect.1).convertRun_eq]
          · rw [if_neg hdirect, if_pos hmode, h.run_eq (by omega) (by omega)]
      | cons next rest =>
          have hlast' : ∀ axis ∈ (next :: rest).getLast?,
              axis.srcStride = 1 ∧ axis.dstStride = 1 := by
            intro a ha
            exact hlast a (by rwa [List.getLast?_cons_cons])
          have hnext := haxes.2 next (by simp)
          rw [walkElements, rangedVisits, List.map_flatMap]
          refine flatten_of_ok fun i hi => ?_
          rw [mem_intRange] at hi
          have hstep : 0 ≤ (i + axis.lo) * axis.dstStride :=
            mul_nonneg (by omega) haxes.1.2.2
          rw [ih haxes.2 hlast' (le_refl 0) hnext.1 (by omega), rangedVisits_full]

/-! ### Strided runs -/

/-- The elements of the run at an outer and a middle index. -/
def stripVisits (outer middle inner : WalkAxis) (i j : Int) : List (Int × Int) :=
  (intRange 0 inner.extent).map fun k =>
    (i * outer.srcStride + j * middle.srcStride + k, i * outer.dstStride + j * middle.dstStride + k)

theorem Buffered.strip_eq (h : state.Buffered inType outType) {direct : Bool}
    (hdirect : direct = true → state.Narrows) {outer middle inner : WalkAxis} {i j : Int}
    (hoffset : 0 ≤ i * outer.dstStride + j * middle.dstStride) (hrun : 0 ≤ inner.extent) :
    state.strip direct outer middle inner i j =
      .ok ((stripVisits outer middle inner i j).map state.move) := by
  unfold strip stripVisits
  by_cases hflag : direct = true
  · rw [if_pos hflag, (hdirect hflag).convertRun_eq]
  · rw [if_neg hflag, h.run_eq hoffset hrun]

/-- The runs of rows in the order of the walker, or streaming the outermost axis. -/
def rowStrips (outer middle inner : WalkAxis) (first last : Int) : List (Int × Int) :=
  (intRange first last).flatMap fun i => (intRange 0 middle.extent).flatMap fun j =>
    stripVisits outer middle inner i j

def columnStrips (outer middle inner : WalkAxis) (first last : Int) : List (Int × Int) :=
  (intRange 0 middle.extent).flatMap fun j => (intRange first last).flatMap fun i =>
    stripVisits outer middle inner i j

theorem Buffered.stridedRuns_eq (h : state.Buffered inType outType) {direct : Bool}
    (hdirect : direct = true → state.Narrows) {outer middle inner : WalkAxis}
    (hstrides : 0 ≤ outer.dstStride ∧ 0 ≤ middle.dstStride) (hrun : 0 ≤ inner.extent)
    {first last : Int} (hfirst : 0 ≤ first) :
    state.stridedRuns direct outer middle inner first last =
      .ok ((if middle.srcStride ≤ outer.srcStride then rowStrips outer middle inner first last
        else columnStrips outer middle inner first last).map state.move) := by
  have hstrip : ∀ i j : Int, first ≤ i → 0 ≤ j → state.strip direct outer middle inner i j =
      .ok ((stripVisits outer middle inner i j).map state.move) := by
    intro i j hi hj
    exact h.strip_eq hdirect (add_nonneg (mul_nonneg (by omega) hstrides.1)
      (mul_nonneg hj hstrides.2)) hrun
  unfold stridedRuns
  by_cases horder : middle.srcStride ≤ outer.srcStride
  · simp only [if_pos horder]
    rw [flatten_of_ok (f := fun index => (stripVisits outer middle inner index.1 index.2).map
      state.move) fun index hindex => ?_]
    · simp only [rowStrips, List.flatMap_assoc, List.flatMap_map, List.map_flatMap]
    · simp only [List.mem_flatMap, List.mem_map, mem_intRange] at hindex
      obtain ⟨i, hi, j, hj, rfl⟩ := hindex
      exact hstrip i j hi.1 hj.1
  · simp only [if_neg horder]
    rw [flatten_of_ok (f := fun index => (stripVisits outer middle inner index.1 index.2).map
      state.move) fun index hindex => ?_]
    · simp only [columnStrips, List.flatMap_assoc, List.flatMap_map, List.map_flatMap]
    · simp only [List.mem_flatMap, List.mem_map, mem_intRange] at hindex
      obtain ⟨j, hj, i, hi, rfl⟩ := hindex
      exact hstrip i j hi.1 hj.1

/-- Without pads and with a contiguous innermost axis the rows are their strips. -/
theorem rangedVisits_strips {outer middle inner : WalkAxis} (hlo : outer.lo = 0 ∧ middle.lo = 0 ∧
    inner.lo = 0) (hunit : inner.srcStride = 1 ∧ inner.dstStride = 1) (first last : Int) :
    rangedVisits [outer, middle, inner] first last 0 0 =
      rowStrips outer middle inner first last := by
  simp only [rangedVisits, visits, rowStrips, stripVisits, hlo, hunit, add_zero, zero_add, mul_one,
    List.map_eq_flatMap]

/-! ### Transposes -/

/-- The elements of a transpose, tile by tile. -/
def tileVisits (outer inner : WalkAxis) (first last : Int) : List (Int × Int) :=
  (tiles first last).flatMap fun tile => (tiles 0 inner.extent).flatMap fun block =>
    (intRange 0 tile.2).flatMap fun row => (intRange 0 block.2).map fun i =>
      ((block.1 + i) * inner.srcStride + (tile.1 + row),
        (tile.1 + row + outer.lo) * outer.dstStride + block.1 + inner.lo + i)

theorem mem_tiles {first last x : Int} :
    (∃ tile ∈ tiles first last, tile.1 ≤ x ∧ x < tile.1 + tile.2) ↔ first ≤ x ∧ x < last := by
  simp only [tiles, kTypedTile, List.mem_map, List.mem_range, exists_exists_and_eq_and]
  constructor
  · rintro ⟨k, hk, hlo, hhi⟩
    omega
  · rintro ⟨hlo, hhi⟩
    exact ⟨((x - first) / 32).toNat, by omega, by omega, by omega⟩

theorem tile_bounds {first last : Int} {tile : Int × Int} (hmem : tile ∈ tiles first last) :
    first ≤ tile.1 ∧ 0 ≤ tile.2 ∧ tile.1 + tile.2 ≤ last := by
  simp only [tiles, kTypedTile, List.mem_map, List.mem_range] at hmem
  obtain ⟨k, hk, rfl⟩ := hmem
  simp only
  omega

theorem Buffered.transpose_eq (h : state.Buffered inType outType) {outer inner : WalkAxis}
    (hwidth : state.widthFrom = 4 ∨ state.widthFrom = 2 ∨ state.widthFrom = 1)
    (hpads : 0 ≤ outer.lo ∧ 0 ≤ inner.lo) (hstride : 0 ≤ outer.dstStride) {first last : Int}
    (hfirst : 0 ≤ first) :
    state.transpose outer inner first last =
      .ok ((tileVisits outer inner first last).map state.move) := by
  unfold transpose tileVisits
  rw [List.map_flatMap]
  refine flatten_of_ok fun tile htile => ?_
  have ht := tile_bounds htile
  rw [List.map_flatMap]
  refine flatten_of_ok fun block hblock => ?_
  have hb := tile_bounds hblock
  rw [List.map_flatMap]
  refine flatten_of_ok fun row hrow => ?_
  rw [mem_intRange] at hrow
  have hstep : 0 ≤ (tile.1 + row + outer.lo) * outer.dstStride :=
    mul_nonneg (by omega) hstride
  rw [tileRow, if_pos hwidth, h.stages_eq _ (by omega) hb.2.1, List.map_map]
  rfl

/-- The tiles hold the elements of the rows. -/
theorem mem_tileVisits {outer inner : WalkAxis} (hsrc : outer.srcStride = 1)
    (hdst : inner.dstStride = 1) {first last : Int} {move : Int × Int} :
    move ∈ tileVisits outer inner first last ↔
      move ∈ rangedVisits [outer, inner] first last 0 0 := by
  have hrows : move ∈ rangedVisits [outer, inner] first last 0 0 ↔ ∃ i j : Int,
      (first ≤ i ∧ i < last) ∧ (0 ≤ j ∧ j < inner.extent) ∧
        move = (i + j * inner.srcStride, (i + outer.lo) * outer.dstStride + (j + inner.lo)) := by
    simp only [rangedVisits, visits, List.mem_flatMap, mem_intRange, List.mem_singleton, hsrc,
      hdst, mul_one, zero_add]
    constructor
    · rintro ⟨i, hi, j, hj, hmove⟩
      exact ⟨i, j, hi, hj, hmove⟩
    · rintro ⟨i, j, hi, hj, hmove⟩
      exact ⟨i, hi, j, hj, hmove⟩
  rw [hrows]
  simp only [tileVisits, List.mem_flatMap, List.mem_map, mem_intRange]
  constructor
  · rintro ⟨tile, htile, block, hblock, row, hrow, i, hi, rfl⟩
    have hr := mem_tiles.mp ⟨tile, htile, show tile.1 ≤ tile.1 + row by omega, by omega⟩
    have hc := mem_tiles.mp ⟨block, hblock, show block.1 ≤ block.1 + i by omega, by omega⟩
    exact ⟨tile.1 + row, block.1 + i, hr, hc, by rw [Prod.mk.injEq]; constructor <;> ring⟩
  · rintro ⟨i, j, hi, hj, rfl⟩
    obtain ⟨tile, htile, hlo, hhi⟩ := mem_tiles.mpr hi
    obtain ⟨block, hblock, hlo', hhi'⟩ := mem_tiles.mpr hj
    refine ⟨tile, htile, block, hblock, i - tile.1, by omega, j - block.1, by omega, ?_⟩
    rw [Prod.mk.injEq]
    constructor <;> ring

end WalkState

end SymReloc
