import SymReloc.Lanes
import SymReloc.Runtime.Gather
import SymReloc.Writes

/-!
# The tiled transpose

`tryGatherTranspose32` with both of its kernels: the scalar one, which copies the cells of a
block one by one, and the register one, which takes eight rows and columns of a block at a time
through a network of shuffles and copies what remains at the right and at the bottom one by
one.  Either writes what the strided walk writes over the same rows.
-/

namespace SymReloc

open Outcome Writes

/-! ### The register kernel -/

section Kernel

variable {ε β : Type}

def kTile : Int := 8

/-- The four bytes of an element. -/
abbrev Element (β : Type) := Fin 4 → β

/-- `_mm256_loadu_si256`. -/
def loadu (source : Memory β) (address : Int) : Lanes.Register (Element β) := fun lane byte =>
  source (address + 4 * (lane.val : Int) + (byte.val : Int))

/-- `_mm256_storeu_si256`. -/
def storeu (address : Int) (register : Lanes.Register (Element β)) : List (Write β) :=
  (List.finRange 8).flatMap fun lane => (List.finRange 4).map fun byte =>
    { cell := address + 4 * (lane.val : Int) + (byte.val : Int), value := register lane byte }

/-- The address of a row of a tile. -/
def rowAddress (base stride i : Int) : Outcome ε Int := do
  let step ← mul64 i stride
  let bytes ← mul64 step kBytes
  pure (base + bytes)

def transpose8x8 (source : Memory β) (src dst srcStride dstStride : Int) :
    Outcome ε (List (Write β)) := do
  let loads ← mapEach (intRange 0 kTile) (rowAddress src srcStride)
  let stores ← mapEach (intRange 0 kTile) (rowAddress dst dstStride)
  let input : Fin 8 → Lanes.Register (Element β) := fun i =>
    loadu source (loads.getD i.val 0)
  let output := Lanes.transpose input
  pure (Lanes.storeOrder.flatMap fun i => storeu (stores.getD i.val 0) (output i))

/-- What the register kernel does next: a tile from a row and a column, or one cell. -/
inductive Piece where
  | tile (r c : Int)
  | cell (r c : Int)
deriving DecidableEq, Repr

/-- The starts of the tiles of a block, along one axis. -/
def tileStarts (block : Int × Int) : List Int :=
  (List.range ((block.2 - block.1).toNat / 8)).map fun k : Nat => block.1 + kTile * k

/-- What remains of a block after its tiles. -/
def tileRest (block : Int × Int) : List Int :=
  intRange (block.1 + kTile * ((block.2 - block.1) / kTile)) block.2

/-- The pieces of a matrix, block by block: rows of tiles, each followed by the columns that
    remain, and then the rows that remain. -/
def transposePieces (rows columns : Int) : List Piece :=
  (blocks rows).flatMap fun rb => (blocks columns).flatMap fun cb =>
    ((tileStarts rb).flatMap fun r =>
      (tileStarts cb).map (.tile r) ++
        (tileRest cb).flatMap fun c => (intRange r (r + kTile)).map fun rr => .cell rr c) ++
      (tileRest rb).flatMap fun r => (intRange cb.1 cb.2).map fun c => .cell r c

/-- The offset of an element of a matrix of some width. -/
def elementOffset (row width column : Int) : Outcome ε Int := do
  let first ← mul64 row width
  let element ← add64 first column
  mul64 element kBytes

def Piece.writes (source : Memory β) (src dst columns srcStride : Int) :
    Piece → Outcome ε (List (Write β))
  | .tile r c => do
      let srcOff ← elementOffset c srcStride r
      let dstOff ← elementOffset r columns c
      transpose8x8 source (src + srcOff) (dst + dstOff) srcStride columns
  | .cell r c => do
      let dstOff ← elementOffset r columns c
      let srcOff ← elementOffset c srcStride r
      pure (ofCopy source { dst := dst + dstOff, src := src + srcOff, bytes := 4 })

def transpose32Avx2 (source : Memory β) (src dst rows columns srcStride : Int) :
    Outcome ε (List (Write β)) := do
  let runs ← mapEach (transposePieces rows columns) (Piece.writes source src dst columns srcStride)
  pure runs.flatten

/-- `transpose32`: with the registers where the processor has them. -/
def transpose32On (avx2 : Bool) (source : Memory β) (src dst rows columns srcStride : Int) :
    Outcome ε (List (Write β)) :=
  if avx2 then transpose32Avx2 source src dst rows columns srcStride
  else do
    let copies ← transpose32 dst src rows columns srcStride
    pure (copies.flatMap (ofCopy source))

/-- What it writes, or none where it declines the plan. -/
def tryGatherTranspose32 (avx2 : Bool) (bound : BoundPlan) (source : Memory β)
    (outerBegin outerEnd : Int) : Option (Outcome ε (List (Write β))) :=
  match bound.transposed32 with
  | none => none
  | some (rows, columns) => some (
      if outerEnd ≤ outerBegin then .ok []
      else do
        let count ← sub64 outerEnd outerBegin
        let src ← mul64 outerBegin kBytes
        let skipped ← mul64 outerBegin columns
        let dst ← mul64 skipped kBytes
        if rows = 1 ∨ columns = 1 then do
          let elements ← mul64 count columns
          let bytes ← mul64 elements kBytes
          pure (ofCopy source { dst, src, bytes := toSize bytes })
        else transpose32On avx2 source src dst count columns rows)

end Kernel

/-! ### The pieces make up the matrix -/

/-- The piece has the cell. -/
def Piece.Has (r c : Int) : Piece → Prop
  | .tile top left => (top ≤ r ∧ r < top + 8) ∧ (left ≤ c ∧ c < left + 8)
  | .cell row column => r = row ∧ c = column

/-- An index of a block is in one of its tiles or in what remains. -/
theorem mem_tileStarts {block : Int × Int} {x : Int} :
    (∃ start ∈ tileStarts block, start ≤ x ∧ x < start + 8) ↔
      block.1 ≤ x ∧ x < block.1 + 8 * ((block.2 - block.1) / 8) := by
  simp only [tileStarts, kTile, List.mem_map, List.mem_range, exists_exists_and_eq_and]
  constructor
  · intro h
    obtain ⟨k, hk, hlo, hhi⟩ := h
    omega
  · intro h
    exact ⟨((x - block.1) / 8).toNat, by omega, by omega, by omega⟩

theorem mem_tileRest {block : Int × Int} {x : Int} :
    x ∈ tileRest block ↔ block.1 + 8 * ((block.2 - block.1) / 8) ≤ x ∧ x < block.2 := mem_intRange

/-- A tile starts in its block and ends in it. -/
theorem tileStarts_bounds {block : Int × Int} {start : Int} (h : start ∈ tileStarts block) :
    block.1 ≤ start ∧ start + 8 ≤ block.2 := by
  simp only [tileStarts, kTile, List.mem_map, List.mem_range] at h
  obtain ⟨k, hk, rfl⟩ := h
  omega

theorem blocks_bounds {n : Int} {block : Int × Int} (h : block ∈ blocks n) :
    0 ≤ block.1 ∧ block.1 ≤ block.2 ∧ block.2 ≤ n := by
  simp only [blocks, kBlock, List.mem_map, List.mem_range] at h
  obtain ⟨k, hk, rfl⟩ := h
  dsimp only
  omega

theorem has_transposePieces {rows columns r c : Int} :
    (∃ piece ∈ transposePieces rows columns, piece.Has r c) ↔
      (0 ≤ r ∧ r < rows) ∧ (0 ≤ c ∧ c < columns) := by
  constructor
  · intro h
    obtain ⟨piece, hpiece, hhas⟩ := h
    simp only [transposePieces, List.mem_flatMap, List.mem_append, List.mem_map,
      mem_intRange] at hpiece
    obtain ⟨rb, hrb, cb, hcb, hpiece⟩ := hpiece
    have hrows := blocks_bounds hrb
    have hcolumns := blocks_bounds hcb
    rcases hpiece with ⟨top, htop, hpiece⟩ | ⟨row, hrow, column, hcolumn, rfl⟩
    · have htile := tileStarts_bounds htop
      rcases hpiece with ⟨left, hleft, rfl⟩ | ⟨column, hcolumn, row, hrow, rfl⟩
      · have hside := tileStarts_bounds hleft
        obtain ⟨hr, hc⟩ := hhas
        omega
      · obtain ⟨rfl, rfl⟩ := hhas
        rw [mem_tileRest] at hcolumn
        unfold kTile at hrow
        omega
    · obtain ⟨rfl, rfl⟩ := hhas
      rw [mem_tileRest] at hrow
      omega
  · intro h
    obtain ⟨hr, hc⟩ := h
    obtain ⟨rb, hrb, hrlo, hrhi⟩ := mem_blocks.mpr hr
    obtain ⟨cb, hcb, hclo, hchi⟩ := mem_blocks.mpr hc
    have hmem : ∀ piece, piece ∈ ((tileStarts rb).flatMap fun r =>
        (tileStarts cb).map (.tile r) ++
          (tileRest cb).flatMap fun c => (intRange r (r + kTile)).map fun rr => .cell rr c) ++
        (tileRest rb).flatMap (fun r => (intRange cb.1 cb.2).map fun c => .cell r c) →
        piece ∈ transposePieces rows columns := fun piece hpiece =>
      List.mem_flatMap.mpr ⟨rb, hrb, List.mem_flatMap.mpr ⟨cb, hcb, hpiece⟩⟩
    by_cases hrow : r < rb.1 + 8 * ((rb.2 - rb.1) / 8)
    · obtain ⟨top, htop, htlo, hthi⟩ := mem_tileStarts.mpr ⟨hrlo, hrow⟩
      by_cases hcolumn : c < cb.1 + 8 * ((cb.2 - cb.1) / 8)
      · obtain ⟨left, hleft, hllo, hlhi⟩ := mem_tileStarts.mpr ⟨hclo, hcolumn⟩
        refine ⟨.tile top left, hmem _ (List.mem_append_left _ (List.mem_flatMap.mpr ⟨top, htop,
          List.mem_append_left _ (List.mem_map_of_mem hleft)⟩)), ⟨htlo, hthi⟩, ⟨hllo, hlhi⟩⟩
      · refine ⟨.cell r c, hmem _ (List.mem_append_left _ (List.mem_flatMap.mpr ⟨top, htop,
          List.mem_append_right _ (List.mem_flatMap.mpr ⟨c, ?_, ?_⟩)⟩)), rfl, rfl⟩
        · exact mem_tileRest.mpr ⟨not_lt.mp hcolumn, hchi⟩
        · exact List.mem_map_of_mem (mem_intRange.mpr ⟨htlo, hthi⟩)
    · refine ⟨.cell r c, hmem _ (List.mem_append_right _ (List.mem_flatMap.mpr ⟨r, ?_, ?_⟩)),
        rfl, rfl⟩
      · exact mem_tileRest.mpr ⟨not_lt.mp hrow, hrhi⟩
      · exact List.mem_map_of_mem (mem_intRange.mpr ⟨hclo, hchi⟩)

/-! ### What a piece writes -/

section Writes

variable {ε β : Type} {source : Memory β} {src dst rows columns srcStride dstStride : Int}
  {writes : List (Write β)} {write : Write β}

/-- A write of a byte of the element at a row and a column. -/
def ElementWrite (source : Memory β) (src dst columns srcStride r c : Int) (write : Write β) :
    Prop :=
  ∃ j : Int, 0 ≤ j ∧ j < 4 ∧ write.cell = dst + (r * columns + c) * 4 + j ∧
    write.value = source (src + (c * srcStride + r) * 4 + j)

theorem mem_storeu {address : Int} {register : Lanes.Register (Element β)} :
    write ∈ storeu address register ↔ ∃ lane byte,
      write.cell = address + 4 * (lane.val : Int) + (byte.val : Int) ∧
        write.value = register lane byte := by
  simp only [storeu, List.mem_flatMap, List.mem_map, List.mem_finRange, true_and]
  constructor
  · intro h
    obtain ⟨lane, byte, rfl⟩ := h
    exact ⟨lane, byte, rfl, rfl⟩
  · intro h
    obtain ⟨lane, byte, hcell, hvalue⟩ := h
    exact ⟨lane, byte, by rw [← hcell, ← hvalue]⟩

theorem rowAddresses_eq {base stride : Int} {addresses : List Int}
    (h : (mapEach (intRange 0 kTile) (rowAddress base stride) : Outcome ε _) = .ok addresses)
    (i : Fin 8) : addresses.getD i.val 0 = base + (i.val : Int) * stride * 4 := by
  have hmap : addresses = (intRange 0 8).map fun i => base + i * stride * 4 := by
    refine eq_map_of_mapEach h fun i _ address haddress => ?_
    simp only [rowAddress, bind_ok_iff, mul64_eq_ok, pure_eq, Outcome.ok.injEq] at haddress
    obtain ⟨_, ⟨-, rfl⟩, _, ⟨-, rfl⟩, rfl⟩ := haddress
    rfl
  rw [hmap]
  fin_cases i <;> rfl

/-- All rows of a tile are stored. -/
theorem mem_storeOrder (i : Fin 8) : i ∈ Lanes.storeOrder := by
  revert i
  decide

/-- A tile writes the rows of its columns: what is stored in a lane of a row was loaded from
    that row's lane of the column. -/
theorem mem_transpose8x8
    (h : (transpose8x8 source src dst srcStride dstStride : Outcome ε _) = .ok writes) :
    write ∈ writes ↔ ∃ r c : Int, (0 ≤ r ∧ r < 8) ∧ (0 ≤ c ∧ c < 8) ∧
      ElementWrite source src dst dstStride srcStride r c write := by
  simp only [transpose8x8, bind_ok_iff, pure_eq, Outcome.ok.injEq] at h
  obtain ⟨loads, hloads, stores, hstores, rfl⟩ := h
  simp only [List.mem_flatMap, mem_storeu]
  constructor
  · intro hmem
    obtain ⟨i, -, lane, byte, hcell, hvalue⟩ := hmem
    rw [rowAddresses_eq hstores] at hcell
    rw [Lanes.transpose_apply, loadu, rowAddresses_eq hloads] at hvalue
    refine ⟨i, lane, by omega, by omega, byte, by omega, by omega, ?_, ?_⟩
    · rw [hcell]
      ring
    · rw [hvalue]
      congr 1
      ring
  · intro hmem
    obtain ⟨r, c, hr, hc, j, hj, hlt, hcell, hvalue⟩ := hmem
    refine ⟨⟨r.toNat, by omega⟩, mem_storeOrder _, ⟨c.toNat, by omega⟩, ⟨j.toNat, by omega⟩, ?_, ?_⟩
    · rw [rowAddresses_eq hstores, hcell]
      simp only [Int.toNat_of_nonneg hr.1, Int.toNat_of_nonneg hc.1, Int.toNat_of_nonneg hj]
      ring
    · rw [Lanes.transpose_apply, loadu, rowAddresses_eq hloads, hvalue]
      simp only [Int.toNat_of_nonneg hr.1, Int.toNat_of_nonneg hc.1, Int.toNat_of_nonneg hj]
      congr 1
      ring

theorem elementOffset_eq_ok {row width column offset : Int}
    (h : (elementOffset row width column : Outcome ε Int) = .ok offset) :
    offset = (row * width + column) * 4 := by
  simp only [elementOffset, bind_ok_iff, mul64_eq_ok, add64_eq_ok] at h
  obtain ⟨_, ⟨-, rfl⟩, _, ⟨-, rfl⟩, -, rfl⟩ := h
  rfl

theorem Piece.mem_writes {piece : Piece}
    (h : (piece.writes source src dst columns srcStride : Outcome ε _) = .ok writes) :
    write ∈ writes ↔
      ∃ r c, piece.Has r c ∧ ElementWrite source src dst columns srcStride r c write := by
  cases piece with
  | tile top left =>
      simp only [Piece.writes, bind_ok_iff] at h
      obtain ⟨srcOff, hsrc, dstOff, hdst, h⟩ := h
      rw [mem_transpose8x8 h, elementOffset_eq_ok hsrc, elementOffset_eq_ok hdst]
      constructor
      · intro hmem
        obtain ⟨r, c, hr, hc, j, hj, hlt, hcell, hvalue⟩ := hmem
        refine ⟨top + r, left + c, ⟨by omega, by omega⟩, j, hj, hlt, ?_, ?_⟩
        · rw [hcell]
          ring
        · rw [hvalue]
          congr 1
          ring
      · intro hmem
        obtain ⟨r, c, ⟨hr, hc⟩, j, hj, hlt, hcell, hvalue⟩ := hmem
        refine ⟨r - top, c - left, by omega, by omega, j, hj, hlt, ?_, ?_⟩
        · rw [hcell]
          ring
        · rw [hvalue]
          congr 1
          ring
  | cell row column =>
      simp only [Piece.writes, bind_ok_iff, pure_eq, Outcome.ok.injEq] at h
      obtain ⟨dstOff, hdst, srcOff, hsrc, rfl⟩ := h
      rw [mem_ofCopy, elementOffset_eq_ok hsrc, elementOffset_eq_ok hdst]
      constructor
      · intro hmem
        obtain ⟨s, ⟨j, hj, hlt, hcell, rfl⟩, hvalue⟩ := hmem
        exact ⟨row, column, ⟨rfl, rfl⟩, j, hj, hlt, hcell, hvalue⟩
      · intro hmem
        obtain ⟨r, c, ⟨rfl, rfl⟩, j, hj, hlt, hcell, hvalue⟩ := hmem
        exact ⟨_, ⟨j, hj, hlt, hcell, rfl⟩, hvalue⟩

/-- The register kernel writes every element of the matrix. -/
theorem mem_transpose32Avx2
    (h : (transpose32Avx2 source src dst rows columns srcStride : Outcome ε _) = .ok writes) :
    write ∈ writes ↔ ∃ r c, ((0 ≤ r ∧ r < rows) ∧ (0 ≤ c ∧ c < columns)) ∧
      ElementWrite source src dst columns srcStride r c write := by
  simp only [transpose32Avx2, bind_ok_iff, pure_eq, Outcome.ok.injEq] at h
  obtain ⟨runs, hruns, rfl⟩ := h
  rw [List.mem_flatten]
  constructor
  · intro hmem
    obtain ⟨run, hrun, hwrite⟩ := hmem
    obtain ⟨piece, hpiece, hpieceRun⟩ := (mem_mapEach hruns).mp hrun
    obtain ⟨r, c, hhas, helement⟩ := (Piece.mem_writes hpieceRun).mp hwrite
    exact ⟨r, c, has_transposePieces.mp ⟨piece, hpiece, hhas⟩, helement⟩
  · intro hmem
    obtain ⟨r, c, hbounds, helement⟩ := hmem
    obtain ⟨piece, hpiece, hhas⟩ := has_transposePieces.mpr hbounds
    obtain ⟨run, hpieceRun⟩ := exists_of_mapEach hruns hpiece
    exact ⟨run, (mem_mapEach hruns).mpr ⟨piece, hpiece, hpieceRun⟩,
      (Piece.mem_writes hpieceRun).mpr ⟨r, c, hhas, helement⟩⟩

/-- So does either kernel. -/
theorem mem_transpose32On {avx2 : Bool}
    (h : (transpose32On avx2 source src dst rows columns srcStride : Outcome ε _) = .ok writes) :
    write ∈ writes ↔ ∃ r c, ((0 ≤ r ∧ r < rows) ∧ (0 ≤ c ∧ c < columns)) ∧
      ElementWrite source src dst columns srcStride r c write := by
  unfold transpose32On at h
  split at h
  · exact mem_transpose32Avx2 h
  · simp only [bind_ok_iff, pure_eq, Outcome.ok.injEq] at h
    obtain ⟨copies, hcopies, rfl⟩ := h
    have hmoves : write ∈ copies.flatMap (ofCopy source) ↔
        ∃ s, Moves copies write.cell s ∧ write.value = source s := by
      simp only [List.mem_flatMap, mem_ofCopy, Moves]
      constructor
      · intro hmem
        obtain ⟨copy, hcopy, s, hs, hvalue⟩ := hmem
        exact ⟨s, ⟨copy, hcopy, hs⟩, hvalue⟩
      · intro hmem
        obtain ⟨s, ⟨copy, hcopy, hs⟩, hvalue⟩ := hmem
        exact ⟨copy, hcopy, s, hs, hvalue⟩
    rw [hmoves]
    constructor
    · intro hmem
      obtain ⟨s, hs, hvalue⟩ := hmem
      obtain ⟨r, c, j, hr, hc, hj, hlt, hcell, rfl⟩ := (moves_transpose32 hcopies).mp hs
      exact ⟨r, c, ⟨hr, hc⟩, j, hj, hlt, hcell, hvalue⟩
    · intro hmem
      obtain ⟨r, c, ⟨hr, hc⟩, j, hj, hlt, hcell, hvalue⟩ := hmem
      exact ⟨_, (moves_transpose32 hcopies).mpr ⟨r, c, j, hr, hc, hj, hlt, hcell, rfl⟩, hvalue⟩

/-! ### The strided walk -/

/-- What the walk over the same rows moves. -/
theorem moves_transposeAxes {copies : List ByteCopy} {outerBegin outerEnd d s : Int}
    (hrows : 0 < rows) (hcolumns : 0 < columns) (hbegin : 0 ≤ outerBegin)
    (hle : outerBegin ≤ outerEnd) (hend : outerEnd ≤ rows)
    (hwalk : (walk 4 (transposeAxes rows columns) outerBegin outerEnd 0 0 : Outcome ε _) =
      .ok copies) :
    Moves copies d s ↔ ∃ r c j : Int, (outerBegin ≤ r ∧ r < outerEnd) ∧ (0 ≤ c ∧ c < columns) ∧
      0 ≤ j ∧ j < 4 ∧ d = (r * columns + c) * 4 + j ∧ s = (c * rows + r) * 4 + j := by
  have hextents : ∀ axis ∈ transposeAxes rows columns, 1 ≤ axis.extent := by
    intro axis hmem
    rcases List.mem_cons.mp hmem with rfl | hmem
    · exact hrows
    · rw [List.mem_singleton.mp hmem]
      exact hcolumns
  have hmoves : Moves copies d s ↔
      Gathers 4 (transposeAxes rows columns) outerBegin outerEnd 0 0 d s := by
    rw [eq_walkTrace hextents hle hwalk]
    exact moves_walkTrace (by decide) hbegin hend
  rw [hmoves, gathers_transposeAxes]
  constructor
  · intro h
    obtain ⟨r, c, j, -, hc, hlo, hhi, hj, hlt, hd, hs⟩ := h
    exact ⟨r, c, j, ⟨hlo, hhi⟩, hc, hj, hlt, hd, hs⟩
  · intro h
    obtain ⟨r, c, j, ⟨hlo, hhi⟩, hc, hj, hlt, hd, hs⟩ := h
    exact ⟨r, c, j, by omega, hc, hlo, hhi, hj, hlt, hd, hs⟩

/-- A row, a column and a byte are told from the offset. -/
theorem element_eq {r r' c c' j j' : Int} (hc : 0 ≤ c ∧ c < columns) (hc' : 0 ≤ c' ∧ c' < columns)
    (hj : 0 ≤ j ∧ j < 4) (hj' : 0 ≤ j' ∧ j' < 4)
    (h : (r * columns + c) * 4 + j = (r' * columns + c') * 4 + j') : r = r' ∧ c = c' ∧ j = j' := by
  have hcell : r * columns + c = r' * columns + c' := by omega
  have hrow : r = r' := by
    have hquotient : (c + r * columns) / columns = (c' + r' * columns) / columns := by
      rw [add_comm c, add_comm c', hcell]
    rwa [Int.add_mul_ediv_right _ _ (by omega), Int.add_mul_ediv_right _ _ (by omega),
      Int.ediv_eq_zero_of_lt hc.1 hc.2, Int.ediv_eq_zero_of_lt hc'.1 hc'.2, zero_add,
      zero_add] at hquotient
  subst hrow
  omega

/-- What the tiled transpose writes when it takes the plan. -/
theorem mem_tryGatherTranspose32 {avx2 : Bool} {bound : BoundPlan} {outerBegin outerEnd : Int}
    (hshape : bound.transposed32 = some (rows, columns)) (hbegin : 0 ≤ outerBegin)
    (hend : outerEnd ≤ rows)
    (h : tryGatherTranspose32 avx2 bound source outerBegin outerEnd =
      some (.ok writes : Outcome ε _)) :
    write ∈ writes ↔ ∃ r c j : Int, (outerBegin ≤ r ∧ r < outerEnd) ∧ (0 ≤ c ∧ c < columns) ∧
      0 ≤ j ∧ j < 4 ∧ write.cell = (r * columns + c) * 4 + j ∧
        write.value = source ((c * rows + r) * 4 + j) := by
  obtain ⟨-, -, hrows, hcolumns, -⟩ := BoundPlan.transposed32_eq_some hshape
  simp only [tryGatherTranspose32, hshape, Option.some.injEq] at h
  by_cases hempty : outerEnd ≤ outerBegin
  · rw [if_pos hempty, Outcome.ok.injEq] at h
    subst h
    refine iff_of_false List.not_mem_nil ?_
    intro hexists
    obtain ⟨r, c, j, hr, -⟩ := hexists
    omega
  · simp only [if_neg hempty, bind_ok_iff, sub64_eq_ok, mul64_eq_ok] at h
    obtain ⟨_, ⟨-, rfl⟩, _, ⟨-, rfl⟩, _, ⟨-, rfl⟩, _, ⟨-, rfl⟩, hrest⟩ := h
    unfold kBytes at hrest
    by_cases hone : rows = 1 ∨ columns = 1
    · simp only [if_pos hone, bind_ok_iff, mul64_eq_ok, pure_eq, Outcome.ok.injEq] at hrest
      obtain ⟨_, ⟨-, rfl⟩, _, ⟨hfits, rfl⟩, rfl⟩ := hrest
      have hbytes : (toSize ((outerEnd - outerBegin) * columns * 4) : Int)
          = (outerEnd - outerBegin) * columns * 4 :=
        toSize_of_nonneg (mul_nonneg (mul_nonneg (by omega) (by omega)) (by decide)) hfits
      rw [mem_ofCopy]
      simp only [ByteCopy.Moves, hbytes]
      -- One of the two coordinates is always zero.
      rcases hone with rfl | rfl
      · have hzero : outerBegin = 0 := by omega
        have hlast : outerEnd = 1 := by omega
        subst hzero hlast
        constructor
        · intro hmem
          obtain ⟨_, ⟨k, hk, hlt, hcell, rfl⟩, hvalue⟩ := hmem
          refine ⟨0, k / 4, k % 4, by omega, by omega, by omega, by omega, by omega, ?_⟩
          rw [hvalue]
          congr 1
          omega
        · intro hmem
          obtain ⟨r, c, j, hr, hc, hj, hlt, hcell, hvalue⟩ := hmem
          obtain rfl : r = 0 := by omega
          refine ⟨_, ⟨c * 4 + j, by omega, by omega, by omega, rfl⟩, ?_⟩
          rw [hvalue]
          congr 1
          omega
      · constructor
        · intro hmem
          obtain ⟨_, ⟨k, hk, hlt, hcell, rfl⟩, hvalue⟩ := hmem
          refine ⟨outerBegin + k / 4, 0, k % 4, by omega, by omega, by omega, by omega, by omega,
            ?_⟩
          rw [hvalue]
          congr 1
          omega
        · intro hmem
          obtain ⟨r, c, j, hr, hc, hj, hlt, hcell, hvalue⟩ := hmem
          obtain rfl : c = 0 := by omega
          refine ⟨_, ⟨(r - outerBegin) * 4 + j, by omega, by omega, by omega, rfl⟩, ?_⟩
          rw [hvalue]
          congr 1
          omega
    · rw [if_neg hone] at hrest
      rw [mem_transpose32On hrest]
      constructor
      · intro hmem
        obtain ⟨r, c, ⟨hr, hc⟩, j, hj, hlt, hcell, hvalue⟩ := hmem
        refine ⟨outerBegin + r, c, j, by omega, hc, hj, hlt, ?_, ?_⟩
        · rw [hcell]
          ring
        · rw [hvalue]
          congr 1
          ring
      · intro hmem
        obtain ⟨r, c, j, hr, hc, hj, hlt, hcell, hvalue⟩ := hmem
        refine ⟨r - outerBegin, c, ⟨by omega, hc⟩, j, hj, hlt, ?_, ?_⟩
        · rw [hcell]
          ring
        · rw [hvalue]
          congr 1
          ring

end Writes

end SymReloc
