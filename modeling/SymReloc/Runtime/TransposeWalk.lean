import SymReloc.Runtime.TransposeTiles

/-!
# The tiled transpose against the walk

For a matrix whose bytes can be counted neither kernel nor the walk leaves the 64-bit range,
and the rows that the tiled transpose takes are as the walk leaves them.
-/

namespace SymReloc

open Outcome Writes

variable {ε β : Type} {source memory : Memory β} {rows columns count : Int}

/-! ### Arithmetic in range -/

/-- Where the pieces of a matrix are. -/
theorem transposePieces_bounds {piece : Piece} (h : piece ∈ transposePieces count columns) :
    match piece with
    | .tile r c => (0 ≤ r ∧ r + 8 ≤ count) ∧ (0 ≤ c ∧ c + 8 ≤ columns)
    | .cell r c => (0 ≤ r ∧ r < count) ∧ (0 ≤ c ∧ c < columns) := by
  cases piece with
  | tile r c =>
      have hfirst : Piece.Has r c (.tile r c) := ⟨by omega, by omega⟩
      have hlast : Piece.Has (r + 7) (c + 7) (.tile r c) := ⟨by omega, by omega⟩
      have hlow := has_transposePieces.mp ⟨_, h, hfirst⟩
      have hhigh := has_transposePieces.mp ⟨_, h, hlast⟩
      dsimp only
      omega
  | cell r c => exact has_transposePieces.mp ⟨_, h, ⟨rfl, rfl⟩⟩

/-- An element of a matrix of so many bytes has an offset. -/
theorem exists_elementOffset (height : Int) {width row column : Int} (hrow : 0 ≤ row ∧ row < height)
    (hcolumn : 0 ≤ column ∧ column < width) (htotal : height * width * 4 < 2 ^ 63) :
    ∃ offset, (elementOffset row width column : Outcome ε Int) = .ok offset := by
  have hnext : (row + 1) * width ≤ height * width :=
    mul_le_mul_of_nonneg_right (by omega) (by omega)
  have hfirst : 0 ≤ row * width := mul_nonneg hrow.1 (by omega)
  rw [add_mul, one_mul] at hnext
  have hfits : ∀ x : Int, 0 ≤ x → x ≤ (row * width + column) * 4 → FitsI64 x := by
    intro x hx hle
    unfold FitsI64
    omega
  simp only [elementOffset, add64, mul64, kBytes,
    exact64_of_fits (hfits (row * width) (by omega) (by omega)),
    exact64_of_fits (hfits (row * width + column) (by omega) (by omega)),
    exact64_of_fits (hfits ((row * width + column) * 4) (by omega) (by omega)), ok_bind]
  exact ⟨_, rfl⟩

theorem exists_rowAddresses {stride : Int} (base : Int) (hstride : 0 ≤ stride)
    (htotal : 8 * stride * 4 < 2 ^ 63) :
    ∃ addresses, (mapEach (intRange 0 kTile) (rowAddress base stride) : Outcome ε _) =
      .ok addresses := by
  refine exists_mapEach fun i hi => ?_
  rw [mem_intRange, kTile] at hi
  have hlow : 0 ≤ i * stride := mul_nonneg hi.1 hstride
  have hhigh : i * stride ≤ 8 * stride := mul_le_mul_of_nonneg_right (by omega) hstride
  have hfits : ∀ x : Int, 0 ≤ x → x ≤ i * stride * 4 → FitsI64 x := by
    intro x hx hle
    unfold FitsI64
    omega
  simp only [rowAddress, mul64, kBytes, exact64_of_fits (hfits (i * stride) hlow (by omega)),
    exact64_of_fits (hfits (i * stride * 4) (by omega) le_rfl), ok_bind, pure_eq]
  exact ⟨_, rfl⟩

theorem exists_transpose8x8 {srcStride dstStride : Int} (src dst : Int)
    (hsrc : 0 ≤ srcStride ∧ 8 * srcStride * 4 < 2 ^ 63)
    (hdst : 0 ≤ dstStride ∧ 8 * dstStride * 4 < 2 ^ 63) :
    ∃ writes, (transpose8x8 source src dst srcStride dstStride : Outcome ε _) = .ok writes := by
  obtain ⟨loads, hloads⟩ : ∃ addresses, (mapEach (intRange 0 kTile) (rowAddress src srcStride) :
      Outcome ε _) = .ok addresses := exists_rowAddresses src hsrc.1 hsrc.2
  obtain ⟨stores, hstores⟩ : ∃ addresses, (mapEach (intRange 0 kTile) (rowAddress dst dstStride) :
      Outcome ε _) = .ok addresses := exists_rowAddresses dst hdst.1 hdst.2
  unfold transpose8x8
  rw [hloads, ok_bind, hstores, ok_bind, pure_eq]
  exact ⟨_, rfl⟩

/-- The register kernel on some rows of a matrix. -/
theorem exists_transpose32Avx2 (src dst : Int) (hcolumns : 0 < columns)
    (hcount : 0 ≤ count ∧ count ≤ rows) (htotal : rows * columns * 4 < 2 ^ 63) :
    ∃ writes, (transpose32Avx2 source src dst count columns rows : Outcome ε _) = .ok writes := by
  have hpart : count * columns ≤ rows * columns := mul_le_mul_of_nonneg_right hcount.2 hcolumns.le
  have hturned : columns * rows = rows * columns := mul_comm columns rows
  obtain ⟨runs, hruns⟩ : ∃ runs, (mapEach (transposePieces count columns)
      (Piece.writes source src dst columns rows) : Outcome ε _) = .ok runs := by
    refine exists_mapEach fun piece hpiece => ?_
    have hbounds := transposePieces_bounds hpiece
    cases piece with
    | tile r c =>
        obtain ⟨hr, hc⟩ := hbounds
        obtain ⟨srcOff, hsrcOff⟩ : ∃ offset, (elementOffset c rows r : Outcome ε Int) =
            .ok offset := exists_elementOffset columns (by omega) (by omega) (by omega)
        obtain ⟨dstOff, hdstOff⟩ : ∃ offset, (elementOffset r columns c : Outcome ε Int) =
            .ok offset := exists_elementOffset count (by omega) (by omega) (by omega)
        have hwide : 8 * rows ≤ columns * rows :=
          mul_le_mul_of_nonneg_right (by omega) (by omega)
        have hhigh : 8 * columns ≤ count * columns :=
          mul_le_mul_of_nonneg_right (by omega) hcolumns.le
        obtain ⟨writes, hwrites⟩ : ∃ writes, (transpose8x8 source (src + srcOff) (dst + dstOff)
            rows columns : Outcome ε _) = .ok writes :=
          exists_transpose8x8 _ _ ⟨by omega, by omega⟩ ⟨by omega, by omega⟩
        exact ⟨writes, by rw [Piece.writes, hsrcOff, ok_bind, hdstOff, ok_bind, hwrites]⟩
    | cell r c =>
        obtain ⟨hr, hc⟩ := hbounds
        obtain ⟨srcOff, hsrcOff⟩ : ∃ offset, (elementOffset c rows r : Outcome ε Int) =
            .ok offset := exists_elementOffset columns (by omega) (by omega) (by omega)
        obtain ⟨dstOff, hdstOff⟩ : ∃ offset, (elementOffset r columns c : Outcome ε Int) =
            .ok offset := exists_elementOffset count (by omega) (by omega) (by omega)
        rw [Piece.writes, hdstOff, ok_bind, hsrcOff, ok_bind]
        exact ⟨_, rfl⟩
  unfold transpose32Avx2
  rw [hruns, ok_bind]
  exact ⟨_, rfl⟩

/-- Taken and in range: the kernel writes. -/
theorem exists_tryGatherTranspose32 (avx2 : Bool) {bound : BoundPlan} {outerBegin outerEnd : Int}
    (hshape : bound.transposed32 = some (rows, columns)) (hbegin : 0 ≤ outerBegin)
    (hend : outerEnd ≤ rows) (htotal : rows * columns * 4 < 2 ^ 63) :
    ∃ writes, tryGatherTranspose32 avx2 bound source outerBegin outerEnd =
      some (.ok writes : Outcome ε _) := by
  obtain ⟨-, -, hrows, hcolumns, -⟩ := BoundPlan.transposed32_eq_some hshape
  obtain ⟨copies, hcopies⟩ : ∃ copies, (gatherTranspose32 rows columns outerBegin outerEnd :
    Outcome ε _) = .ok copies := exists_gatherTranspose32 hrows hcolumns hbegin hend htotal
  unfold gatherTranspose32 at hcopies
  simp only [tryGatherTranspose32, hshape, Option.some.injEq]
  by_cases hempty : outerEnd ≤ outerBegin
  · exact ⟨[], if_pos hempty⟩
  · -- The scalar kernel's arithmetic is in range, and with it what comes before either kernel.
    simp only [if_neg hempty, bind_ok_iff] at hcopies ⊢
    obtain ⟨count, hcount, src, hsrc, skipped, hskipped, dst, hdst, hrest⟩ := hcopies
    by_cases hone : rows = 1 ∨ columns = 1
    · simp only [if_pos hone, bind_ok_iff, pure_eq, Outcome.ok.injEq] at hrest ⊢
      obtain ⟨elements, helements, bytes, hbytes, -⟩ := hrest
      exact ⟨_, count, hcount, src, hsrc, skipped, hskipped, dst, hdst, elements, helements, bytes,
        hbytes, rfl⟩
    · simp only [if_neg hone] at hrest ⊢
      have hexact : outerEnd - outerBegin = count := (sub64_eq_ok.mp hcount).2
      have hkernel : ∃ writes, (transpose32On avx2 source src dst count columns rows :
          Outcome ε _) = .ok writes := by
        unfold transpose32On
        split
        · exact exists_transpose32Avx2 src dst hcolumns (by omega) htotal
        · rw [hrest, ok_bind]
          exact ⟨_, rfl⟩
      obtain ⟨writes, hwrites⟩ := hkernel
      exact ⟨writes, count, hcount, src, hsrc, skipped, hskipped, dst, hdst, hwrites⟩

/-- The walk over the same rows. -/
theorem exists_walk_transposeAxes {outerBegin outerEnd : Int} (hrows : 0 < rows)
    (hcolumns : 0 < columns) (hbegin : 0 ≤ outerBegin) (hend : outerEnd ≤ rows)
    (htotal : rows * columns * 4 < 2 ^ 63) :
    ∃ copies, (walk 4 (transposeAxes rows columns) outerBegin outerEnd 0 0 : Outcome ε _) =
      .ok copies := by
  by_cases hempty : outerEnd ≤ outerBegin
  · have hnone : intRange outerBegin outerEnd = [] := by
      rw [intRange, Int.toNat_of_nonpos (by omega)]
      rfl
    refine ⟨[], ?_⟩
    rw [transposeAxes, walk, hnone]
    rfl
  · have hrow : rows ≤ rows * columns := le_mul_of_one_le_right hrows.le hcolumns
    have hcolumn : columns ≤ rows * columns := le_mul_of_one_le_left hcolumns.le hrows
    have hwalkable : ∀ axis ∈ transposeAxes rows columns, axis.Walkable := by
      intro axis hmem
      rcases List.mem_cons.mp hmem with rfl | hmem
      · refine ⟨hrows, le_rfl, zero_le_one, hcolumns.le, ?_⟩
        unfold FitsI64
        dsimp only
        omega
      · rw [List.mem_singleton.mp hmem]
        refine ⟨hcolumns, le_rfl, hrows.le, zero_le_one, ?_⟩
        unfold FitsI64
        dsimp only
        omega
    have hlast : (rows - 1) * 1 + (columns - 1) * rows = rows * columns - 1 := by ring
    have hlast' : (rows - 1 + 0) * columns + (columns - 1 + 0) * 1 = rows * columns - 1 := by ring
    refine exists_walk (by decide) hwalkable hbegin (by omega) hend le_rfl le_rfl ?_ ?_
    · have hstart : lastStart (transposeAxes rows columns) outerBegin ≤ rows * columns - 1 := by
        rw [transposeAxes, lastStart, lastStart]
        split
        · rename_i hone
          dsimp only at hone ⊢
          omega
        · exact hlast.le
      have hpos := lastStart_nonneg hwalkable hbegin
      rw [transposeAxes] at hstart hpos
      constructor
      · omega
      · rw [Nat.cast_ofNat]
        omega
    · have hoffset : dstOffset (transposeAxes rows columns)
          (lastValid (transposeAxes rows columns)) = rows * columns - 1 := by
        rw [← hlast']
        simp only [transposeAxes, lastValid, List.map_cons, List.map_nil, dstOffset, add_zero]
      rw [transposeAxes] at hoffset
      rw [hoffset]
      constructor
      · omega
      · rw [Nat.cast_ofNat]
        omega

/-! ### Main results -/

/-- The plan is the transpose of a full matrix of 32-bit elements, with no pads. -/
def BoundPlan.TurnsMatrix (bound : BoundPlan) (rows columns : Int) : Prop :=
  bound.typed = false ∧ bound.elementSize = 4 ∧ bound.padRegions = [] ∧ 0 < rows ∧ 0 < columns ∧
    bound.extents = [rows, columns] ∧ bound.srcStrides = [1, rows] ∧
    bound.dstStrides = [columns, 1]

theorem BoundPlan.transposed32_iff {bound : BoundPlan} :
    bound.transposed32 = some (rows, columns) ↔ bound.TurnsMatrix rows columns := by
  unfold BoundPlan.transposed32 BoundPlan.TurnsMatrix
  constructor
  · intro h
    split at h
    · rename_i hextents hsrc hdst
      split at h
      · rename_i hall
        obtain ⟨htyped, hsize, hpads, hrows, hcolumns, rfl, rfl, rfl, rfl⟩ := hall
        cases h
        exact ⟨htyped, hsize, hpads, hrows, hcolumns, hextents, hsrc, hdst⟩
      · cases h
    · cases h
  · intro h
    obtain ⟨htyped, hsize, hpads, hrows, hcolumns, hextents, hsrc, hdst⟩ := h
    simp only [hextents, hsrc, hdst]
    exact if_pos ⟨htyped, hsize, hpads, hrows, hcolumns, trivial, trivial, trivial, trivial⟩

/-- With either kernel, the tiled transpose takes the plan of a full matrix of 32-bit elements
    and no other.  On every range of its rows it writes the bytes that the strided walk writes,
    with their values, so it leaves the same memory; and neither overflows when the bytes of the
    matrix can be counted. -/
theorem tryGatherTranspose32_eq_walk (avx2 : Bool) (bound : BoundPlan)
    (source memory : Memory β) (outerBegin outerEnd : Int) :
    (tryGatherTranspose32 avx2 bound source outerBegin outerEnd = (none : Option (Outcome ε _)) ↔
      ∀ rows columns, ¬ bound.TurnsMatrix rows columns) ∧
    ∀ rows columns, bound.TurnsMatrix rows columns → 0 ≤ outerBegin → outerEnd ≤ rows →
      (∀ writes copies,
        tryGatherTranspose32 avx2 bound source outerBegin outerEnd =
          some (.ok writes : Outcome ε _) →
        (walk bound.elementSize bound.walkAxes outerBegin outerEnd 0 0 : Outcome ε _) =
          .ok copies →
        (∀ write, write ∈ writes ↔
          ∃ s, Moves copies write.cell s ∧ write.value = source s) ∧
        run writes memory = runCopies source copies memory) ∧
      (rows * columns * 4 < 2 ^ 63 →
        (∃ writes, tryGatherTranspose32 avx2 bound source outerBegin outerEnd =
          some (.ok writes : Outcome ε _)) ∧
        ∃ copies, (walk bound.elementSize bound.walkAxes outerBegin outerEnd 0 0 : Outcome ε _) =
          .ok copies) := by
  constructor
  · unfold tryGatherTranspose32
    cases hshape : bound.transposed32 with
    | none =>
        refine iff_of_true rfl fun rows columns hturns => ?_
        rw [BoundPlan.transposed32_iff.mpr hturns] at hshape
        cases hshape
    | some shape =>
        obtain ⟨rows, columns⟩ := shape
        exact iff_of_false nofun fun hnone => hnone rows columns
          (BoundPlan.transposed32_iff.mp hshape)
  · intro rows columns hturns hbegin hend
    have hshape := BoundPlan.transposed32_iff.mpr hturns
    obtain ⟨hsize, -, hrows, hcolumns, haxes⟩ := BoundPlan.transposed32_eq_some hshape
    rw [hsize, haxes]
    constructor
    · intro writes copies hwrites hcopies
      have hmoves : ∀ d s, Moves copies d s ↔ ∃ r c j : Int, (outerBegin ≤ r ∧ r < outerEnd) ∧
          (0 ≤ c ∧ c < columns) ∧ 0 ≤ j ∧ j < 4 ∧ d = (r * columns + c) * 4 + j ∧
            s = (c * rows + r) * 4 + j := by
        intro d s
        by_cases hle : outerBegin ≤ outerEnd
        · exact moves_transposeAxes hrows hcolumns hbegin hle hend hcopies
        · have hnone : intRange outerBegin outerEnd = [] := by
            rw [intRange, Int.toNat_of_nonpos (by omega)]
            rfl
          rw [transposeAxes, walk, hnone] at hcopies
          cases hcopies
          refine iff_of_false moves_nil ?_
          intro hexists
          obtain ⟨r, c, j, hr, -⟩ := hexists
          omega
      have hmem : ∀ write, write ∈ writes ↔
          ∃ s, Moves copies write.cell s ∧ write.value = source s := by
        intro write
        rw [mem_tryGatherTranspose32 hshape hbegin hend hwrites]
        constructor
        · intro h
          obtain ⟨r, c, j, hr, hc, hj, hlt, hcell, hvalue⟩ := h
          exact ⟨_, (hmoves _ _).mpr ⟨r, c, j, hr, hc, hj, hlt, hcell, rfl⟩, hvalue⟩
        · intro h
          obtain ⟨s, hs, hvalue⟩ := h
          obtain ⟨r, c, j, hr, hc, hj, hlt, hcell, rfl⟩ := (hmoves _ _).mp hs
          exact ⟨r, c, j, hr, hc, hj, hlt, hcell, hvalue⟩
      refine ⟨hmem, run_eq_runCopies ?_ hmem⟩
      intro d s s' hs hs'
      obtain ⟨r, c, j, -, hc, hj, hlt, hd, rfl⟩ := (hmoves _ _).mp hs
      obtain ⟨r', c', j', -, hc', hj', hlt', hd', rfl⟩ := (hmoves _ _).mp hs'
      obtain ⟨rfl, rfl, rfl⟩ := element_eq hc hc' ⟨hj, hlt⟩ ⟨hj', hlt'⟩ (hd.symm.trans hd')
      rfl
    · intro htotal
      exact ⟨exists_tryGatherTranspose32 avx2 hshape hbegin hend htotal,
        exists_walk_transposeAxes hrows hcolumns hbegin hend htotal⟩

/-- A matrix with a tile and cells to the right of it and below it. -/
def turnedBound : BoundPlan where
  extents := [9, 10]
  srcStrides := [1, 9]
  dstStrides := [10, 1]
  perm := [1, 0]
  padRegions := []
  elementSize := 4
  totalBytes := 360
  noCopy := false
  typed := false
  strategy := .multiThreadTiled
  L := 9
  requiredAlignments := []

theorem tryGatherTranspose32_turned : turnedBound.TurnsMatrix 9 10 ∧
    ∃ writes copies,
      tryGatherTranspose32 true turnedBound (fun s => s) 1 9 =
        some (.ok writes : Outcome Unit (List (Write Int))) ∧
      (walk turnedBound.elementSize turnedBound.walkAxes 1 9 0 0 : Outcome Unit _) = .ok copies ∧
      run writes (fun _ => 0) = runCopies (fun s => s) copies (fun _ => 0) := by
  have hturns : turnedBound.TurnsMatrix 9 10 :=
    ⟨rfl, rfl, rfl, by decide, by decide, rfl, rfl, rfl⟩
  obtain ⟨hsame, htotal⟩ := (tryGatherTranspose32_eq_walk true turnedBound
    (fun s => s) (fun _ => 0) 1 9).2 9 10 hturns (by decide) le_rfl
  obtain ⟨⟨writes, hwrites⟩, copies, hcopies⟩ := htotal (by decide)
  exact ⟨hturns, writes, copies, hwrites, hcopies, (hsame writes copies hwrites hcopies).2⟩

end SymReloc
