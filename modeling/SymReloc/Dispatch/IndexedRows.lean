import SymReloc.Dispatch.Views
import SymReloc.Runtime.DividedWork

/-!
# Executing a row selection

`executeHostWindow` runs a program with row indices by rows: result row `i` is the row
`rowIndices[i]` of the table, copied or converted.  A chunk has complete selected rows, and
workers take consecutive ranges of them.
-/

namespace SymReloc

open Outcome Writes Quant

/-! ### Sizes -/

def kMinTypedBytesPerWorker : Int := 64 * 1024

/-- How many rows ahead the hint is: `RELOC_INDEXED_PREFETCH` as `atoll` reads it, where the
    variable is set. -/
def indexedPrefetchRows : Option Int → Int
  | some value => max 0 value
  | none => 32

/-- The units a worker must have; its sum and its division are unchecked. -/
def workerFloor {ε : Type} (bytesPerUnit minBytes : Int) : Outcome ε Int := do
  let sum ← add64 minBytes bytesPerUnit
  let sum ← sub64 sum 1
  pure (max 1 (sum / bytesPerUnit))

/-- The floor is a number exactly when the unit and the least share fit. -/
theorem workerFloor_cases {ε : Type} {unit : Int} (hunit : 0 ≤ unit) :
    (unit + 2 ^ 16 < 2 ^ 63 → ∃ floor, (exact64 unit >>= fun unitBytes =>
        workerFloor unitBytes kMinTypedBytesPerWorker : Outcome ε Int) = .ok floor) ∧
    (¬ unit + 2 ^ 16 < 2 ^ 63 → ∃ kind, (exact64 unit >>= fun unitBytes =>
        workerFloor unitBytes kMinTypedBytesPerWorker : Outcome ε Int) = .fault kind) := by
  unfold workerFloor kMinTypedBytesPerWorker
  constructor
  · intro hfits
    rw [exact64_of_fits (by unfold FitsI64; omega), ok_bind, add64,
      exact64_of_fits (by unfold FitsI64; omega), ok_bind, sub64,
      exact64_of_fits (by unfold FitsI64; omega), ok_bind]
    exact ⟨_, rfl⟩
  · intro hover
    by_cases hfits : FitsI64 unit
    · rw [exact64_of_fits hfits, ok_bind, add64, exact64, if_neg (by unfold FitsI64; omega)]
      exact ⟨_, rfl⟩
    · rw [exact64, if_neg hfits]
      exact ⟨_, rfl⟩

/-- The rows of a chunk that has complete rows, of `rows` rows of `rowBytes` bytes each. -/
def completeWindow (rows rowBytes : Int) (invalid : ExecutionError) (chunk : Chunk) :
    Outcome ExecutionError (Int × Int) := do
  require (0 ≤ chunk.validBegin ∧ chunk.validBegin < chunk.validEnd ∧ chunk.validEnd ≤ rows ∧
    chunk.paddedBegin = chunk.validBegin ∧ chunk.paddedEnd = chunk.validEnd) invalid
  let offset ← mul64 chunk.validBegin rowBytes
  require (chunk.byteOffset = offset) invalid
  let rows ← sub64 chunk.validEnd chunk.validBegin
  let bytes ← mul64 rows rowBytes
  require (chunk.bytes = toSize bytes) invalid
  pure (chunk.validBegin, chunk.validEnd)

namespace DispatchProgram

variable (program : DispatchProgram)

/-- `rowCount` of the selected rows. -/
def rowCount : Int := program.rowIndices.length

/-- The selected rows of a call: all, or those of a chunk of complete rows. -/
def rowWindow (rowBytes : Int) : Option Chunk → Outcome ExecutionError (Int × Int)
  | none => .ok (0, program.rowCount)
  | some chunk => do
      let invalid : ExecutionError :=
        ⟨.invalidChunk, "indexed chunk must contain complete selected rows"⟩
      require (0 ≤ chunk.validBegin ∧ chunk.validBegin < chunk.validEnd ∧
        chunk.validEnd ≤ program.rowCount ∧ chunk.paddedBegin = chunk.validBegin ∧
        chunk.paddedEnd = chunk.validEnd) invalid
      let offset ← mul64 chunk.validBegin rowBytes
      require (chunk.byteOffset = offset) invalid
      let rows ← sub64 chunk.validEnd chunk.validBegin
      let bytes ← mul64 rows rowBytes
      require (chunk.bytes = toSize bytes) invalid
      pure (chunk.validBegin, chunk.validEnd)

end DispatchProgram

/-! ### Rows -/

/-- A checked call: the program, its widths and the selected rows `[first, last)`. -/
structure RowsCall where
  program : DispatchProgram
  inputWidth : Nat
  outputWidth : Nat
  first : Int
  last : Int
deriving DecidableEq, Repr

/-- The checks of a call; the grain of the workers is computed last. -/
def rowsPrologue (program : DispatchProgram) (fromStage toStage : Nat) (chunk : Option Chunk) :
    Outcome ExecutionError RowsCall := do
  require (fromStage ≤ toStage ∧ toStage ≤ program.stages.length)
    ⟨.invalidBoundary, "stage range [" ++ toString fromStage ++ ", " ++ toString toStage ++
      ") is not inside the program"⟩
  require (fromStage = 0 ∧ toStage = program.stages.length)
    ⟨.invalidBoundary, "indexed programs execute all host stages together"⟩
  let inputWidth ← program.widthAt 0
  let outputWidth ← program.widthAt toStage
  let rowBytes ← mul64 program.indexedRowElements outputWidth
  let (first, last) ← program.rowWindow rowBytes chunk
  let unitBytes ← mul64 program.indexedRowElements (inputWidth + outputWidth : Nat)
  let _ ← workerFloor unitBytes kMinTypedBytesPerWorker
  pure { program, inputWidth, outputWidth, first, last }

namespace RowsCall

variable (call : RowsCall)

def columns : Int := call.program.indexedRowElements

/-- The cells of the table. -/
def tableElements : Int := call.program.indexedSourceRows * call.columns

/-- A read outside the table is undefined. -/
def load (source : Memory Nat) (cell : Int) : Outcome ExecutionError Nat :=
  if 0 ≤ cell ∧ cell < call.tableElements then .ok (source cell % 2 ^ (8 * call.inputWidth))
  else .fault .outOfBounds

/-- One value of a row: copied, narrowed by the conversion of whole rows, or passed through
    the stage. -/
def convert (aligned : Bool) (bits : Nat) : Nat :=
  match call.program.stages with
  | [] => bits
  | stage :: _ =>
      if isFloatWidth call.program.plan.sourceType 32 ∧ aligned then narrowF32F16 bits
      else applyStage stage bits 0

/-- The counter of a row's cache lines, 64 bytes each, as it leaves the row. -/
def passLines (rowInputBytes : Int) : Outcome ExecutionError Unit :=
  if 0 < rowInputBytes then do
    let _ ← add64 ((rowInputBytes - 1) / 64 * 64) 64
    pure ()
  else pure ()

/-- The addresses of the row so many rows ahead; the hint reads nothing. -/
def prefetch (ahead rowInputBytes last row : Int) : Outcome ExecutionError Unit :=
  if 0 < ahead then do
    let later ← add64 row ahead
    if later < last then do
      let next ← fetch call.program.rowIndices later.toNat
      let _ ← mul64 next rowInputBytes
      passLines rowInputBytes
    else pure ()
  else pure ()

/-- The cells of one selected row. -/
def rowCells (ahead rowInputBytes : Int) (source : Memory Nat) (aligned : Bool) (last row : Int) :
    Outcome ExecutionError (List CellWrite) := do
  call.prefetch ahead rowInputBytes last row
  let index ← fetch call.program.rowIndices row.toNat
  let base ← mul64 index call.columns
  let _ ← mul64 base call.inputWidth
  let rowBytes ← mul64 call.columns call.outputWidth
  let skipped ← sub64 row call.first
  let _ ← mul64 skipped rowBytes
  mapEach (intRange 0 call.columns) fun column => do
    let bits ← call.load source (base + column)
    pure ⟨skipped * call.columns + column, call.convert aligned bits % 2 ^ (8 * call.outputWidth)⟩

/-- One worker's rows. -/
def work (setting : Option Int) (source : Memory Nat) (aligned : Bool) (first last : Int) :
    Outcome ExecutionError (List CellWrite) := do
  let rowInputBytes ← mul64 call.columns call.inputWidth
  let ahead := indexedPrefetchRows setting
  let rows ← mapEach (intRange first last) (call.rowCells ahead rowInputBytes source aligned last)
  pure rows.flatten

end RowsCall

/-- The results of one call of `executeHost` or `executeHostChunk` on a program with row
    indices, for every division of the rows among workers. -/
def ExecutesRows (setting : Option Int) (program : DispatchProgram) (fromStage toStage : Nat)
    (chunk : Option Chunk) (aligned : Bool) (source memory : Memory Nat)
    (result : Outcome ExecutionError (Memory Nat)) : Prop :=
  match rowsPrologue program fromStage toStage chunk with
  | .error reason => result = .error reason
  | .fault kind => result = .fault kind
  | .ok call => ∃ parts, Partition call.first parts call.last ∧
      Finishes (parts.map fun part => call.work setting source aligned part.1 part.2) memory result

/-! ### The rows that are selected -/

/-- The value of a selected element: the same, rounded to the narrower type, or widened. -/
def IndexedRelocationPlan.cast (plan : IndexedRelocationPlan) (bits : Nat) : Nat :=
  if plan.source.elementType = plan.result.elementType then bits
  else if isFloatWidth plan.source.elementType 32 then narrowF32F16 bits
  else widenF16F32 bits

/-- What the program of a bound selection needs to run. -/
structure DispatchProgram.Ready (program : DispatchProgram) (plan : IndexedRelocationPlan) :
    Prop where
  supported : plan.supported
  sourceType : program.plan.sourceType = plan.source.elementType
  stages : program.stages =
    if plan.source.elementType = plan.result.elementType then [] else [selectedArithmetic plan]
  columns : 1 ≤ program.indexedRowElements
  nonempty : 1 ≤ program.rowCount
  counted : program.rowCount * 4 < 2 ^ 63
  inside : ∀ row ∈ program.rowIndices, 0 ≤ row ∧ row < program.indexedSourceRows
  physical : FitsI64 (program.indexedSourceRows * program.indexedRowElements *
    byteWidth plan.source.elementType)
  result : FitsI64 (program.rowCount * program.indexedRowElements *
    byteWidth plan.result.elementType)

theorem DispatchProgram.SelectsFrom.ready {program : DispatchProgram}
    {plan : IndexedRelocationPlan} {bound : IndexedBoundPlan} {operand : IndexOperand}
    {sourceRows : Int} {rowShape : List Int} {source : BufferView}
    (hprogram : program.SelectsFrom plan bound sourceRows source)
    (h : bound.Selects plan operand sourceRows rowShape) : program.Ready plan := by
  have hcount : program.rowCount = bound.indices.length := by
    rw [DispatchProgram.rowCount, hprogram.indices]
  have hcolumns : program.indexedRowElements = rowShape.prod := by rw [hprogram.columns, h.row]
  have hlength := List.length_pos_iff.mpr h.nonempty
  constructor
  · exact h.supported
  · rw [hprogram.selected, h.types.1]
  · exact hprogram.stages
  · rw [hcolumns]
    exact one_le_prod h.extents.2
  · rw [hcount]
    omega
  · rw [hcount]
    exact h.counted
  · rw [hprogram.indices, hprogram.rows]
    exact h.inside
  · rw [hprogram.rows, hcolumns]
    exact h.physical
  · rw [hcount, hcolumns, ← h.destinationBytes]
    exact h.fits.2

/-- The bytes of one row at both ends, the unit of a worker's share; no check bounds them. -/
def DispatchProgram.unitBytes (program : DispatchProgram) (plan : IndexedRelocationPlan) : Int :=
  program.indexedRowElements *
    (byteWidth plan.source.elementType + byteWidth plan.result.elementType : Nat)

theorem DispatchProgram.fetch_row (program : DispatchProgram) {row : Int} (hrow : 0 ≤ row)
    (hlt : row < program.rowCount) :
    (fetch program.rowIndices row.toNat : Outcome ExecutionError Int) =
        .ok (program.rowIndices.getD row.toNat 0) ∧
      program.rowIndices.getD row.toNat 0 ∈ program.rowIndices := by
  have hnat : row.toNat < program.rowIndices.length := by
    unfold DispatchProgram.rowCount at hlt
    omega
  rw [fetch_of_lt hnat, List.getD_eq_getElem _ _ hnat]
  exact ⟨rfl, List.getElem_mem hnat⟩

namespace DispatchProgram.Ready

variable {program : DispatchProgram} {plan : IndexedRelocationPlan} (h : program.Ready plan)

include h

theorem widths : program.widthAt 0 = .ok (byteWidth plan.source.elementType) ∧
    program.widthAt program.stages.length = .ok (byteWidth plan.result.elementType) := by
  have hsource : program.widthAt 0 = .ok (byteWidth plan.source.elementType) := by
    rw [← h.sourceType]
    rfl
  refine ⟨hsource, ?_⟩
  rw [h.stages]
  by_cases hsame : plan.source.elementType = plan.result.elementType
  · rw [if_pos hsame, ← hsame]
    exact hsource
  · rw [if_neg hsame]
    show (do
      let type ← program.typeAt 1
      pure (byteWidth type)) = _
    unfold Program.typeAt
    rw [h.stages, if_neg hsame]
    rfl

theorem width_pos : 1 ≤ byteWidth plan.source.elementType ∧
    1 ≤ byteWidth plan.result.elementType := by
  have hwidth : ∀ type : ElementType, (isFloatWidth type 32 ∨ isFloatWidth type 16 ∨ isInt8 type) →
      1 ≤ byteWidth type := by
    rintro type (⟨-, hbits⟩ | ⟨-, hbits⟩ | ⟨-, hbits⟩) <;> simp [byteWidth, hbits]
  rcases h.supported with ⟨hsame, htype, -⟩ | ⟨hsource, hresult, -⟩ | ⟨hsource, hresult, -⟩
  · exact ⟨hwidth _ htype, hwidth _ (hsame ▸ htype)⟩
  · exact ⟨hwidth _ (.inl hsource), hwidth _ (.inr (.inl hresult))⟩
  · exact ⟨hwidth _ (.inr (.inl hsource)), hwidth _ (.inl hresult)⟩

/-- Every conversion gives the value of the cast. -/
theorem convert_eq {call : RowsCall} (hcall : call.program = program) (aligned : Bool) {bits : Nat}
    (hbits : bits < 2 ^ (8 * byteWidth plan.source.elementType)) :
    call.convert aligned bits = plan.cast bits := by
  unfold RowsCall.convert IndexedRelocationPlan.cast
  rw [hcall, h.stages, h.sourceType]
  by_cases hsame : plan.source.elementType = plan.result.elementType
  · rw [if_pos hsame, if_pos hsame]
  · rw [if_neg hsame, if_neg hsame]
    dsimp only
    rcases h.supported with ⟨heq, -⟩ | ⟨hsource, hresult, -⟩ | ⟨hsource, hresult, -⟩
    · exact absurd heq hsame
    · have hnot : ¬ isBFloat16 plan.result.elementType := fun hb => by
        rw [isBFloat16, hresult.1] at hb
        cases hb.1
      have hlt : bits < 2 ^ 32 := by
        simpa [byteWidth, hsource.2] using hbits
      rw [if_pos hsource]
      split
      · rfl
      · simp only [applyStage, selectedArithmetic, if_pos hsource, if_neg hnot,
          Nat.mod_eq_of_lt hlt]
    · have hwide : ¬ isFloatWidth plan.source.elementType 32 := fun hf => by
        have := hsource.2.symm.trans hf.2
        omega
      have hnot : ¬ isBFloat16 plan.source.elementType := fun hb => by
        rw [isBFloat16, hsource.1] at hb
        cases hb.1
      have hlt : bits < 2 ^ 16 := by
        simpa [byteWidth, hsource.2] using hbits
      rw [if_neg hwide, if_neg (fun hf => hwide hf.1)]
      simp only [applyStage, selectedArithmetic, if_neg hwide, if_neg hnot, Nat.mod_eq_of_lt hlt]

/-! ### Its arithmetic -/

theorem fits_source {x : Int} (hx : 0 ≤ x)
    (hle : x ≤ program.indexedSourceRows * program.indexedRowElements *
      byteWidth plan.source.elementType) : FitsI64 x := by
  have hfits := h.physical
  unfold FitsI64 at hfits ⊢
  omega

theorem fits_result {x : Int} (hx : 0 ≤ x)
    (hle : x ≤ program.rowCount * program.indexedRowElements * byteWidth plan.result.elementType) :
    FitsI64 x := by
  have hfits := h.result
  unfold FitsI64 at hfits ⊢
  omega

/-- The offset of a row of the table, in elements and in bytes. -/
theorem fits_row {row : Int} (hrow : row ∈ program.rowIndices) :
    FitsI64 (row * program.indexedRowElements) ∧
      FitsI64 (row * program.indexedRowElements * byteWidth plan.source.elementType) ∧
      (row + 1) * program.indexedRowElements ≤
        program.indexedSourceRows * program.indexedRowElements := by
  obtain ⟨hlo, hhi⟩ := h.inside row hrow
  have hcolumns := h.columns
  have hwidth : (1 : Int) ≤ byteWidth plan.source.elementType := by exact_mod_cast h.width_pos.1
  have hbase := mul_nonneg hlo (show 0 ≤ program.indexedRowElements by omega)
  have hnext : (row + 1) * program.indexedRowElements ≤
      program.indexedSourceRows * program.indexedRowElements :=
    mul_le_mul_of_nonneg_right (by omega) (by omega)
  have hskip : row * program.indexedRowElements ≤ (row + 1) * program.indexedRowElements :=
    mul_le_mul_of_nonneg_right (by omega) (by omega)
  have hbytes := mul_le_mul_of_nonneg_right (hskip.trans hnext)
    (show (0 : Int) ≤ byteWidth plan.source.elementType by omega)
  have hself := le_mul_of_one_le_right hbase hwidth
  exact ⟨h.fits_source hbase (hself.trans hbytes),
    h.fits_source (mul_nonneg hbase (by omega)) hbytes, hnext⟩

/-- Rows of the result, in bytes. -/
theorem fits_rows {count : Int} (hcount : 0 ≤ count) (hle : count ≤ program.rowCount) :
    FitsI64 (program.indexedRowElements * byteWidth plan.result.elementType) ∧
      FitsI64 (count * (program.indexedRowElements * byteWidth plan.result.elementType)) := by
  have hcolumns := h.columns
  have hone := h.nonempty
  have hrow := mul_nonneg (show 0 ≤ program.indexedRowElements by omega)
    (Int.natCast_nonneg (byteWidth plan.result.elementType))
  constructor
  · refine h.fits_result hrow ?_
    rw [mul_assoc]
    exact le_mul_of_one_le_left hrow hone
  · refine h.fits_result (mul_nonneg hcount hrow) ?_
    rw [mul_assoc]
    exact mul_le_mul_of_nonneg_right hle hrow

/-- The floor of the workers is a number exactly when the unit and the least share fit. -/
theorem floor_cases : (program.unitBytes plan + 2 ^ 16 < 2 ^ 63 →
      ∃ floor, (exact64 (program.unitBytes plan) >>= fun unitBytes =>
        workerFloor unitBytes kMinTypedBytesPerWorker :
          Outcome ExecutionError Int) = .ok floor) ∧
    (¬ program.unitBytes plan + 2 ^ 16 < 2 ^ 63 →
      ∃ kind, (exact64 (program.unitBytes plan) >>= fun unitBytes =>
        workerFloor unitBytes kMinTypedBytesPerWorker :
          Outcome ExecutionError Int) = .fault kind) :=
  workerFloor_cases (mul_nonneg (by have := h.columns; omega) (Int.natCast_nonneg _))

/-- A call for all stages: the window, then the floor. -/
theorem rowsPrologue_eq (chunk : Option Chunk) :
    rowsPrologue program 0 program.stages.length chunk =
      program.rowWindow (program.indexedRowElements * byteWidth plan.result.elementType) chunk >>=
        fun window => (exact64 (program.unitBytes plan) >>= fun unitBytes =>
          workerFloor unitBytes kMinTypedBytesPerWorker) >>= fun _ =>
            .ok { program, inputWidth := byteWidth plan.source.elementType,
                  outputWidth := byteWidth plan.result.elementType, first := window.1,
                  last := window.2 } := by
  have hstages : (require (0 ≤ program.stages.length ∧
      program.stages.length ≤ program.stages.length) ⟨.invalidBoundary, "stage range [" ++
        toString 0 ++ ", " ++ toString program.stages.length ++ ") is not inside the program"⟩ :
          Outcome ExecutionError Unit) = .ok () := require_eq_ok.mpr ⟨Nat.zero_le _, le_refl _⟩
  unfold rowsPrologue
  rw [hstages, ok_bind, require, if_pos ⟨rfl, rfl⟩, ok_bind, h.widths.1, ok_bind, h.widths.2,
    ok_bind, mul64,
    exact64_of_fits (h.fits_rows (le_refl 0) (by have := h.nonempty; omega)).1, ok_bind]
  congr 1
  funext window
  rw [bind_assoc]
  rfl

/-! ### Its rows -/

/-- The cells of a selected row in a window from `first` on: the cast of the row of the table
    that its index names. -/
def selectedCells (program : DispatchProgram) (plan : IndexedRelocationPlan)
    (source : Memory Nat) (first row : Int) : List CellWrite :=
  (intRange 0 program.indexedRowElements).map fun column =>
    ⟨(row - first) * program.indexedRowElements + column,
      plan.cast
        (source (program.rowIndices.getD row.toNat 0 * program.indexedRowElements + column) %
          2 ^ (8 * byteWidth plan.source.elementType)) %
            2 ^ (8 * byteWidth plan.result.elementType)⟩

/-- A row of the table, in bytes, with room for a cache line behind it. -/
theorem fits_rowInput (hunit : program.unitBytes plan + 2 ^ 16 < 2 ^ 63) :
    0 < program.indexedRowElements * (byteWidth plan.source.elementType : Int) ∧
      program.indexedRowElements * (byteWidth plan.source.elementType : Int) + 64 < 2 ^ 63 := by
  have hcolumns := h.columns
  have hwidth : (1 : Int) ≤ byteWidth plan.source.elementType := by exact_mod_cast h.width_pos.1
  have hresult := mul_nonneg (show 0 ≤ program.indexedRowElements by omega)
    (Int.natCast_nonneg (byteWidth plan.result.elementType))
  have hpos := mul_pos (show 0 < program.indexedRowElements by omega)
    (show (0 : Int) < byteWidth plan.source.elementType by omega)
  rw [DispatchProgram.unitBytes, Nat.cast_add, mul_add] at hunit
  omega

/-- The hint for a later row only computes addresses of the table. -/
theorem prefetch_eq {call : RowsCall} (hprogram : call.program = program)
    (hunit : program.unitBytes plan + 2 ^ 16 < 2 ^ 63) {ahead last row : Int}
    (hahead : 0 < ahead → program.rowCount - 1 + ahead < 2 ^ 63)
    (hrow : 0 ≤ row) (hlt : row < last) (hlast : last ≤ program.rowCount) :
    call.prefetch ahead (program.indexedRowElements * byteWidth plan.source.elementType) last row =
      .ok () := by
  unfold RowsCall.prefetch
  by_cases hdistance : 0 < ahead
  · have hbound := hahead hdistance
    rw [if_pos hdistance, add64, exact64_of_fits (by unfold FitsI64; omega), ok_bind]
    by_cases hlater : row + ahead < last
    · obtain ⟨hfetch, hmem⟩ := program.fetch_row (show 0 ≤ row + ahead by omega) (by omega)
      have hbytes := (h.fits_row hmem).2.1
      obtain ⟨hpos, hroom⟩ := h.fits_rowInput hunit
      rw [if_pos hlater, hprogram, hfetch, ok_bind, mul64,
        exact64_of_fits (by rwa [← mul_assoc]), ok_bind, RowsCall.passLines, if_pos hpos, add64,
        exact64_of_fits (by unfold FitsI64; omega), ok_bind, pure_eq]
    · rw [if_neg hlater, pure_eq]
  · rw [if_neg hdistance, pure_eq]

theorem rowCells_eq {call : RowsCall} (hprogram : call.program = program)
    (hinput : call.inputWidth = byteWidth plan.source.elementType)
    (houtput : call.outputWidth = byteWidth plan.result.elementType)
    (hunit : program.unitBytes plan + 2 ^ 16 < 2 ^ 63) {ahead : Int}
    (hahead : 0 < ahead → program.rowCount - 1 + ahead < 2 ^ 63) (source : Memory Nat)
    (aligned : Bool) {last row : Int} (hfirst : 0 ≤ call.first) (hrow : call.first ≤ row)
    (hlt : row < last) (hlast : last ≤ program.rowCount) :
    call.rowCells ahead (program.indexedRowElements * byteWidth plan.source.elementType) source
        aligned last row =
      .ok (selectedCells program plan source call.first row) := by
  obtain ⟨hfetch, hmem⟩ := program.fetch_row (show 0 ≤ row by omega) (by omega)
  obtain ⟨hbase, hbytes, hnext⟩ := h.fits_row hmem
  obtain ⟨hrowBytes, hskipped⟩ := h.fits_rows (show 0 ≤ row - call.first by omega) (by omega)
  have hcounted := h.counted
  have hlo := mul_nonneg (h.inside _ hmem).1 (show 0 ≤ program.indexedRowElements by
    have := h.columns; omega)
  unfold RowsCall.rowCells
  rw [h.prefetch_eq hprogram hunit hahead (by omega) hlt hlast, ok_bind, hprogram, hfetch, ok_bind,
    RowsCall.columns, hprogram, hinput, houtput, mul64, exact64_of_fits hbase, ok_bind, mul64,
    exact64_of_fits hbytes, ok_bind, mul64, exact64_of_fits hrowBytes, ok_bind, sub64,
    exact64_of_fits (by unfold FitsI64; omega), ok_bind, mul64, exact64_of_fits hskipped, ok_bind]
  rw [selectedCells]
  generalize program.rowIndices.getD row.toNat 0 = index at hlo hnext ⊢
  have hload : ∀ column ∈ intRange 0 program.indexedRowElements,
      call.load source (index * program.indexedRowElements + column) =
        .ok (source (index * program.indexedRowElements + column) %
          2 ^ (8 * byteWidth plan.source.elementType)) := by
    intro column hcolumn
    rw [mem_intRange] at hcolumn
    rw [add_mul, one_mul] at hnext
    rw [RowsCall.load, RowsCall.tableElements, RowsCall.columns, hprogram, hinput,
      if_pos ⟨by omega, by omega⟩]
  refine mapEach_eq_map fun column hcolumn => ?_
  rw [hload column hcolumn, ok_bind, h.convert_eq hprogram aligned (Nat.mod_lt _ (by positivity))]
  rfl

theorem work_eq {call : RowsCall} (hprogram : call.program = program)
    (hinput : call.inputWidth = byteWidth plan.source.elementType)
    (houtput : call.outputWidth = byteWidth plan.result.elementType)
    (hunit : program.unitBytes plan + 2 ^ 16 < 2 ^ 63) {setting : Option Int}
    (hahead : 0 < indexedPrefetchRows setting →
      program.rowCount - 1 + indexedPrefetchRows setting < 2 ^ 63) (source : Memory Nat)
    (aligned : Bool) {first last : Int} (hfirst : 0 ≤ call.first) (hle : call.first ≤ first)
    (hlast : last ≤ program.rowCount) :
    call.work setting source aligned first last =
      .ok ((intRange first last).flatMap (selectedCells program plan source call.first)) := by
  obtain ⟨hpos, hroom⟩ := h.fits_rowInput hunit
  unfold RowsCall.work
  rw [hinput, RowsCall.columns, hprogram, mul64,
    exact64_of_fits (by unfold FitsI64; omega), ok_bind]
  dsimp only
  rw [mapEach_eq_map fun row hrow => h.rowCells_eq hprogram hinput houtput hunit hahead source
    aligned hfirst (hle.trans (mem_intRange.mp hrow).1) (mem_intRange.mp hrow).2 hlast, ok_bind,
    pure_eq, List.flatMap_def]

omit h in
/-- The cells of one row are the row's own. -/
theorem mem_selectedCells {source : Memory Nat} {first row : Int} {write : CellWrite} :
    write ∈ selectedCells program plan source first row ↔
      ∃ column, (0 ≤ column ∧ column < program.indexedRowElements) ∧
        write = ⟨(row - first) * program.indexedRowElements + column,
          plan.cast (source (program.rowIndices.getD row.toNat 0 * program.indexedRowElements +
            column) % 2 ^ (8 * byteWidth plan.source.elementType)) %
              2 ^ (8 * byteWidth plan.result.elementType)⟩ := by
  simp only [selectedCells, List.mem_map, mem_intRange, eq_comm]

omit h in
theorem cell_inj {columns row row' column column' : Int} (hcolumn : 0 ≤ column ∧ column < columns)
    (hother : 0 ≤ column' ∧ column' < columns)
    (heq : row * columns + column = row' * columns + column') : row = row' ∧ column = column' := by
  have hrow : row = row' := by
    have hleft := Int.add_mul_ediv_right column row (show columns ≠ 0 by omega)
    have hright := Int.add_mul_ediv_right column' row' (show columns ≠ 0 by omega)
    rw [Int.ediv_eq_zero_of_lt hcolumn.1 hcolumn.2] at hleft
    rw [Int.ediv_eq_zero_of_lt hother.1 hother.2] at hright
    rw [add_comm, heq, add_comm] at hleft
    omega
  subst hrow
  exact ⟨rfl, by omega⟩

end DispatchProgram.Ready

end SymReloc
