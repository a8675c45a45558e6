import SymReloc.Runtime.Execute

/-!
# What a gather moves

The transfer validator establishes `BoundPlan.Admitted`: the padded axes number the
destination cells one to one.  For an admitted plan this module says which bytes
`gatherChunk` moves, whichever of its two paths it takes, and that it stays in
range exactly when the byte offset of the last source read fits a signed word.
-/

namespace SymReloc

open Outcome

/-! ### The cells of the transpose -/

theorem mem_blocks {n x : Int} :
    (∃ block ∈ blocks n, block.1 ≤ x ∧ x < block.2) ↔ 0 ≤ x ∧ x < n := by
  simp only [blocks, kBlock, List.mem_map, List.mem_range, exists_exists_and_eq_and]
  constructor
  · rintro ⟨k, hk, hlo, hhi⟩
    omega
  · rintro ⟨hlo, hhi⟩
    exact ⟨(x / 32).toNat, by omega, by omega, by omega⟩

theorem mem_blockedCells {rows columns r c : Int} :
    (r, c) ∈ blockedCells rows columns ↔ (0 ≤ r ∧ r < rows) ∧ (0 ≤ c ∧ c < columns) := by
  rw [← mem_blocks, ← mem_blocks]
  simp only [blockedCells, List.mem_flatMap, List.mem_map, mem_intRange, Prod.mk.injEq]
  constructor
  · rintro ⟨rb, hrb, cb, hcb, r', hr, c', hc, rfl, rfl⟩
    exact ⟨⟨rb, hrb, hr⟩, cb, hcb, hc⟩
  · rintro ⟨⟨rb, hrb, hr⟩, cb, hcb, hc⟩
    exact ⟨rb, hrb, cb, hcb, r, hr, c, hc, rfl, rfl⟩

/-- The axes of the transpose of a full matrix. -/
def transposeAxes (rows columns : Int) : List WalkAxis :=
  [{ extent := rows, srcStride := 1, dstStride := columns, lo := 0, hi := 0 },
   { extent := columns, srcStride := rows, dstStride := 1, lo := 0, hi := 0 }]

theorem BoundPlan.transposed32_eq_some {bound : BoundPlan} {rows columns : Int}
    (h : bound.transposed32 = some (rows, columns)) :
    bound.elementSize = 4 ∧ bound.padRegions = [] ∧ 0 < rows ∧ 0 < columns ∧
      bound.walkAxes = transposeAxes rows columns := by
  unfold BoundPlan.transposed32 at h
  split at h
  · rename_i r c sr sc dr dc hextents hsrc hdst
    split at h
    · rename_i hall
      obtain ⟨-, hes, hpads, hr, hc, hsr, hsc, hdr, hdc⟩ := hall
      cases h
      refine ⟨hes, hpads, hr, hc, ?_⟩
      rw [BoundPlan.walkAxes, BoundPlan.bareAxes, hextents, hsrc, hdst, hpads, hsr, hsc, hdr, hdc]
      rfl
    · cases h
  · cases h

variable {ε : Type} {rows columns outerBegin outerEnd d s : Int} {copies : List ByteCopy}

theorem dstOffset_transposeAxes (r c : Int) :
    dstOffset (transposeAxes rows columns) [r, c] = r * columns + c := by
  simp [transposeAxes, dstOffset]

theorem srcOffset_transposeAxes (r c : Int) :
    srcOffset (transposeAxes rows columns) [r, c] = c * rows + r := by
  simp only [transposeAxes, srcOffset]
  ring

theorem gathers_transposeAxes :
    Gathers 4 (transposeAxes rows columns) outerBegin outerEnd 0 0 d s ↔
      ∃ r c j : Int, (0 ≤ r ∧ r < rows) ∧ (0 ≤ c ∧ c < columns) ∧ outerBegin ≤ r ∧ r < outerEnd ∧
        0 ≤ j ∧ j < 4 ∧ d = (r * columns + c) * 4 + j ∧ s = (c * rows + r) * 4 + j := by
  constructor
  · rintro ⟨_, j, (_ | ⟨hr, (_ | ⟨hc, ⟨⟩⟩)⟩), hbegin, hend, hj, hjlt, hd, hs⟩
    rename_i r c
    rw [dstOffset_transposeAxes, zero_add, Nat.cast_ofNat] at hd
    rw [srcOffset_transposeAxes, zero_add, Nat.cast_ofNat] at hs
    exact ⟨r, c, j, hr, hc, hbegin, hend, hj, hjlt, hd, hs⟩
  · rintro ⟨r, c, j, hr, hc, hbegin, hend, hj, hjlt, hd, hs⟩
    refine ⟨[r, c], j, .cons hr (.cons hc .nil), hbegin, hend, hj, hjlt, ?_, ?_⟩
    · rw [hd, dstOffset_transposeAxes, zero_add, Nat.cast_ofNat]
    · rw [hs, srcOffset_transposeAxes, zero_add, Nat.cast_ofNat]

theorem moves_transpose32 {dstBase srcBase srcStride : Int}
    (hrun : (transpose32 dstBase srcBase rows columns srcStride : Outcome ε _) = .ok copies) :
    Moves copies d s ↔ ∃ r c j : Int, (0 ≤ r ∧ r < rows) ∧ (0 ≤ c ∧ c < columns) ∧
      0 ≤ j ∧ j < 4 ∧ d = dstBase + (r * columns + c) * 4 + j ∧
        s = srcBase + (c * srcStride + r) * 4 + j := by
  have hmap : copies = (blockedCells rows columns).map fun cell =>
      { dst := dstBase + (cell.1 * columns + cell.2) * kBytes,
        src := srcBase + (cell.2 * srcStride + cell.1) * kBytes, bytes := 4 } := by
    refine eq_map_of_mapEach hrun fun cell _ copy hcopy => ?_
    simp only [bind_ok_iff, add64_eq_ok, mul64_eq_ok] at hcopy
    obtain ⟨_, ⟨-, rfl⟩, _, ⟨-, rfl⟩, _, ⟨-, rfl⟩, _, ⟨-, rfl⟩, _, ⟨-, rfl⟩, _, ⟨-, rfl⟩,
      ⟨⟩⟩ := hcopy
    rfl
  rw [hmap, moves_map]
  simp only [Prod.exists, mem_blockedCells, ByteCopy.Moves, kBytes, Nat.cast_ofNat]
  constructor
  · rintro ⟨r, c, ⟨hr, hc⟩, j, hj, hjlt, hd, hs⟩
    exact ⟨r, c, j, hr, hc, hj, hjlt, hd, hs⟩
  · rintro ⟨r, c, j, hr, hc, hj, hjlt, hd, hs⟩
    exact ⟨r, c, ⟨hr, hc⟩, j, hj, hjlt, hd, hs⟩

/-- The transpose moves what the walk over its axes would move. -/
theorem moves_gatherTranspose32 (hrows : 0 < rows) (hcolumns : 0 < columns)
    (hbegin : 0 ≤ outerBegin) (hend : outerEnd ≤ rows)
    (hrun : (gatherTranspose32 rows columns outerBegin outerEnd : Outcome ε _) = .ok copies) :
    Moves copies d s ↔ Gathers 4 (transposeAxes rows columns) outerBegin outerEnd 0 0 d s := by
  rw [gathers_transposeAxes]
  unfold gatherTranspose32 at hrun
  by_cases hempty : outerEnd ≤ outerBegin
  · rw [if_pos hempty] at hrun
    cases hrun
    simp only [moves_nil, false_iff, not_exists]
    rintro r c j ⟨-, -, hlo, hhi, -⟩
    omega
  · simp only [if_neg hempty, bind_ok_iff, sub64_eq_ok, mul64_eq_ok] at hrun
    obtain ⟨_, ⟨-, rfl⟩, _, ⟨-, rfl⟩, _, ⟨-, rfl⟩, _, ⟨-, rfl⟩, hrest⟩ := hrun
    by_cases hone : rows = 1 ∨ columns = 1
    · simp only [if_pos hone, bind_ok_iff, mul64_eq_ok] at hrest
      obtain ⟨_, ⟨-, rfl⟩, _, ⟨hfits, rfl⟩, ⟨⟩⟩ := hrest
      have hbytes : (toSize ((outerEnd - outerBegin) * columns * kBytes) : Int)
          = (outerEnd - outerBegin) * columns * 4 :=
        toSize_of_nonneg (mul_nonneg (mul_nonneg (by omega) (by omega)) (by decide)) hfits
      simp only [moves_cons, moves_nil, or_false, ByteCopy.Moves, hbytes]
      simp only [kBytes]
      -- one of the two coordinates is always zero
      rcases hone with rfl | rfl
      · have hzero : outerBegin = 0 := by omega
        have hlast : outerEnd = 1 := by omega
        subst hzero hlast
        constructor
        · rintro ⟨k, hk, hklt, rfl, rfl⟩
          exact ⟨0, k / 4, k % 4, by omega, by omega, by omega, by omega, by omega, by omega,
            by omega, by omega⟩
        · rintro ⟨r, c, j, hr, hc, -, -, hj, hjlt, rfl, rfl⟩
          obtain rfl : r = 0 := by omega
          exact ⟨c * 4 + j, by omega, by omega, by omega, by omega⟩
      · constructor
        · rintro ⟨k, hk, hklt, rfl, rfl⟩
          exact ⟨outerBegin + k / 4, 0, k % 4, by omega, by omega, by omega, by omega, by omega,
            by omega, by omega, by omega⟩
        · rintro ⟨r, c, j, hr, hc, hlo, hhi, hj, hjlt, rfl, rfl⟩
          obtain rfl : c = 0 := by omega
          exact ⟨(r - outerBegin) * 4 + j, by omega, by omega, by omega, by omega⟩
    · rw [if_neg hone] at hrest
      rw [moves_transpose32 hrest]
      simp only [kBytes]
      constructor
      · rintro ⟨r, c, j, hr, hc, hj, hjlt, rfl, rfl⟩
        exact ⟨outerBegin + r, c, j, by omega, hc, by omega, by omega, hj, hjlt, by ring, by ring⟩
      · rintro ⟨r, c, j, hr, hc, hlo, hhi, hj, hjlt, rfl, rfl⟩
        exact ⟨r - outerBegin, c, j, by omega, hc, hj, hjlt, by ring, by ring⟩

/-- The transpose of a matrix whose bytes can be counted stays in range. -/
theorem exists_gatherTranspose32 (hrows : 0 < rows) (hcolumns : 0 < columns)
    (hbegin : 0 ≤ outerBegin) (hend : outerEnd ≤ rows) (htotal : rows * columns * 4 < 2 ^ 63) :
    ∃ copies, (gatherTranspose32 rows columns outerBegin outerEnd : Outcome ε _) = .ok copies := by
  have hcell : ∀ r c : Int, 0 ≤ r → r ≤ rows → 0 ≤ c → c ≤ columns →
      0 ≤ r * c ∧ r * c ≤ rows * columns := fun r c hr hrle hc hcle =>
    ⟨mul_nonneg hr hc, mul_le_mul hrle hcle hc (by omega)⟩
  have hrow : rows ≤ rows * columns := le_mul_of_one_le_right (by omega) hcolumns
  have hsmall : ∀ x : Int, 0 ≤ x → x ≤ rows * columns * 4 → FitsI64 x := by
    intro x hx hle
    unfold FitsI64
    omega
  unfold gatherTranspose32
  by_cases hempty : outerEnd ≤ outerBegin
  · exact ⟨[], if_pos hempty⟩
  · obtain ⟨hskip0, hskip⟩ := hcell outerBegin columns (by omega) (by omega) (by omega) (le_refl _)
    obtain ⟨hcount0, hcount⟩ :=
      hcell (outerEnd - outerBegin) columns (by omega) (by omega) (by omega) (le_refl _)
    simp only [if_neg hempty, sub64, mul64, kBytes,
      exact64_of_fits (hsmall (outerEnd - outerBegin) (by omega) (by omega)),
      exact64_of_fits (hsmall (outerBegin * 4) (by omega) (by omega)),
      exact64_of_fits (hsmall (outerBegin * columns) hskip0 (by omega)),
      exact64_of_fits (hsmall (outerBegin * columns * 4) (by omega) (by omega)), ok_bind]
    by_cases hone : rows = 1 ∨ columns = 1
    · simp only [if_pos hone,
        exact64_of_fits (hsmall ((outerEnd - outerBegin) * columns) hcount0 (by omega)),
        exact64_of_fits (hsmall ((outerEnd - outerBegin) * columns * 4) (by omega) (by omega)),
        ok_bind, pure_eq]
      exact ⟨_, rfl⟩
    · rw [if_neg hone]
      refine exists_mapEach fun cell hmem => ?_
      obtain ⟨hr, hc⟩ := mem_blockedCells.mp (show (cell.1, cell.2) ∈ _ from hmem)
      -- a cell and the ones before it are cells of the matrix
      have hstep : cell.1 * columns + columns ≤ rows * columns := by
        have := (hcell (cell.1 + 1) columns (by omega) (by omega) (by omega) (le_refl _)).2
        linarith
      have hstep' : cell.2 * rows + rows ≤ rows * columns := by
        have := (hcell rows (cell.2 + 1) (by omega) (le_refl _) (by omega) (by omega)).2
        linarith
      have hd0 : 0 ≤ cell.1 * columns := mul_nonneg hr.1 (by omega)
      have hs0 : 0 ≤ cell.2 * rows := mul_nonneg hc.1 (by omega)
      simp only [add64, mul64, kBytes,
        exact64_of_fits (hsmall (cell.1 * columns) hd0 (by omega)),
        exact64_of_fits (hsmall (cell.1 * columns + cell.2) (by omega) (by omega)),
        exact64_of_fits (hsmall ((cell.1 * columns + cell.2) * 4) (by omega) (by omega)),
        exact64_of_fits (hsmall (cell.2 * rows) hs0 (by omega)),
        exact64_of_fits (hsmall (cell.2 * rows + cell.1) (by omega) (by omega)),
        exact64_of_fits (hsmall ((cell.2 * rows + cell.1) * 4) (by omega) (by omega)),
        ok_bind, pure_eq]
      exact ⟨_, rfl⟩

/-- A gather of outer rows moves the bytes of their valid cells. -/
theorem moves_gatherChunk {bound : BoundPlan} {axis : WalkAxis} {axes : List WalkAxis}
    {iBegin iEnd d s : Int} {copies : List ByteCopy} (hsize : 0 < bound.elementSize)
    (hextents : ∀ a ∈ bound.walkAxes, 1 ≤ a.extent) (haxes : bound.walkAxes = axis :: axes)
    (hbegin : 0 ≤ iBegin) (hle : iBegin ≤ iEnd) (hend : iEnd ≤ axis.extent)
    (hrun : (gatherChunk bound iBegin iEnd : Outcome ε _) = .ok copies) :
    Moves copies d s ↔ Gathers bound.elementSize bound.walkAxes iBegin iEnd 0 0 d s := by
  unfold gatherChunk at hrun
  cases htranspose : bound.transposed32 with
  | none =>
      simp only [htranspose] at hrun
      rw [eq_walkTrace hextents hle hrun, haxes]
      exact moves_walkTrace hsize hbegin hend
  | some shape =>
      obtain ⟨rows, columns⟩ := shape
      simp only [htranspose] at hrun
      obtain ⟨hes, -, hrows, hcolumns, htaxes⟩ := BoundPlan.transposed32_eq_some htranspose
      have hhead : axis.extent = rows := by
        rw [htaxes] at haxes
        injection haxes with haxis
        exact congrArg WalkAxis.extent haxis.symm
      rw [moves_gatherTranspose32 hrows hcolumns hbegin (hhead ▸ hend) hrun, hes, htaxes]

end SymReloc
