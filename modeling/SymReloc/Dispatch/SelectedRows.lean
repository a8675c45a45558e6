import SymReloc.Dispatch.IndexedRows
import SymReloc.Runtime.RowWindows

/-!
# Row selections end to end

A call on a program with row indices writes the rows its chunk asks for, and the chunks that
are planned for the selected rows cut them into complete rows.  Binding, preparing and the
workers compute their sizes without overflow, except for the least share of a worker and the
row that a prefetch looks ahead to.
-/

namespace SymReloc

open Outcome Writes Quant

/-! ### Windows of rows -/

/-- The rows `[first, last)` of the result, in a window that starts at the first of them: each
    value is the cast of the row of the table that its index names, and nothing else changes. -/
structure DispatchProgram.Written (program : DispatchProgram) (plan : IndexedRelocationPlan)
    (source : Memory Nat) (first last : Int) (memory written : Memory Nat) : Prop where
  rows : ∀ row column, first ≤ row ∧ row < last →
    0 ≤ column ∧ column < program.indexedRowElements →
      written ((row - first) * program.indexedRowElements + column) =
        plan.cast (source (program.rowIndices.getD row.toNat 0 * program.indexedRowElements +
          column) % 2 ^ (8 * byteWidth plan.source.elementType)) %
            2 ^ (8 * byteWidth plan.result.elementType)
  others : ∀ cell, ¬ (0 ≤ cell ∧ cell < (last - first) * program.indexedRowElements) →
    written cell = memory cell

/-- A run of complete rows of a matrix of `rows` rows. -/
def Chunk.Complete (rows rowBytes : Int) (chunk : Chunk) : Prop :=
  (0 ≤ chunk.validBegin ∧ chunk.validBegin < chunk.validEnd ∧ chunk.validEnd ≤ rows) ∧
    (chunk.paddedBegin = chunk.validBegin ∧ chunk.paddedEnd = chunk.validEnd) ∧
    chunk.byteOffset = chunk.validBegin * rowBytes ∧
    (chunk.bytes : Int) = (chunk.validEnd - chunk.validBegin) * rowBytes

theorem Chunk.Cut.complete {rows rowBytes : Int} {chunk : Chunk} {chunks : List Chunk}
    (h : chunk.Cut 0 rows rowBytes rows) (hrow : 0 < rowBytes)
    (htiles : Tiles 0 chunks (rows * rowBytes)) (hmem : chunk ∈ chunks) :
    chunk.Complete rows rowBytes := by
  have hpos := htiles.pos hmem
  have hend := (htiles.bounds hmem).2
  rw [h.offset, h.bytes, ← add_mul] at hend
  have hle := le_of_mul_le_mul_right hend hrow
  have hbytes := h.bytes
  have hrows : 0 < chunk.paddedEnd - chunk.paddedBegin :=
    pos_of_mul_pos_left (by omega) hrow.le
  have hfirst := h.rows chunk.paddedBegin
  have hlast := h.rows (chunk.paddedEnd - 1)
  have hvalid := h.rows chunk.validBegin
  have hvalidEnd := h.rows (chunk.validEnd - 1)
  have hrange := h.range
  have hbegin := h.first
  obtain ⟨hb, he⟩ : chunk.paddedBegin = chunk.validBegin ∧ chunk.paddedEnd = chunk.validEnd := by
    omega
  refine ⟨by omega, ⟨hb, he⟩, ?_, ?_⟩
  · rw [h.offset, hb]
  · rw [h.bytes, hb, he]

/-- A call for a chunk has its rows where they are complete, and is refused elsewhere. -/
theorem completeWindow_cases {rows rowBytes : Int} (invalid : ExecutionError)
    (hrows : FitsI64 rows) (hpos : 0 ≤ rowBytes) (hfits : FitsI64 (rows * rowBytes))
    (chunk : Chunk) :
    (chunk.Complete rows rowBytes ∧
        completeWindow rows rowBytes invalid chunk = .ok (chunk.validBegin, chunk.validEnd)) ∨
      (¬ chunk.Complete rows rowBytes ∧
        completeWindow rows rowBytes invalid chunk = .error invalid) := by
  by_cases hrange : 0 ≤ chunk.validBegin ∧ chunk.validBegin < chunk.validEnd ∧
      chunk.validEnd ≤ rows ∧ chunk.paddedBegin = chunk.validBegin ∧
      chunk.paddedEnd = chunk.validEnd
  · obtain ⟨hbegin, hlt, hend, hpad, hpadEnd⟩ := hrange
    have hfit : ∀ count : Int, 0 ≤ count → count ≤ rows → FitsI64 (count * rowBytes) := by
      intro count hcount hle
      have hlow := mul_nonneg hcount hpos
      have hhigh := mul_le_mul_of_nonneg_right hle hpos
      unfold FitsI64 at hfits ⊢
      omega
    have hoffset := hfit _ hbegin (by omega)
    have hcount := hfit (chunk.validEnd - chunk.validBegin) (by omega) (by omega)
    have hsize := toSize_of_nonneg (mul_nonneg (show 0 ≤ chunk.validEnd - chunk.validBegin by omega)
      hpos) hcount
    have hspan : FitsI64 (chunk.validEnd - chunk.validBegin) := by
      unfold FitsI64 at hrows ⊢
      omega
    have hrun : completeWindow rows rowBytes invalid chunk = (do
        require (chunk.byteOffset = chunk.validBegin * rowBytes) invalid
        require (chunk.bytes = toSize ((chunk.validEnd - chunk.validBegin) * rowBytes)) invalid
        pure (chunk.validBegin, chunk.validEnd)) := by
      unfold completeWindow
      rw [require, if_pos ⟨hbegin, hlt, hend, hpad, hpadEnd⟩, ok_bind, mul64,
        exact64_of_fits hoffset, ok_bind, sub64, exact64_of_fits hspan, ok_bind, mul64,
        exact64_of_fits hcount, ok_bind]
    rw [hrun]
    by_cases hbytes : chunk.byteOffset = chunk.validBegin * rowBytes ∧
        chunk.bytes = toSize ((chunk.validEnd - chunk.validBegin) * rowBytes)
    · refine .inl ⟨⟨⟨hbegin, hlt, hend⟩, ⟨hpad, hpadEnd⟩, hbytes.1, ?_⟩, ?_⟩
      · rw [hbytes.2, hsize]
      · rw [require, if_pos hbytes.1, ok_bind, require, if_pos hbytes.2, ok_bind, pure_eq]
    · refine .inr ⟨?_, ?_⟩
      · rintro ⟨-, -, hoffset, hwindow⟩
        refine hbytes ⟨hoffset, ?_⟩
        rw [← hsize] at hwindow
        exact_mod_cast hwindow
      · by_cases hfirst : chunk.byteOffset = chunk.validBegin * rowBytes
        · rw [require, if_pos hfirst, ok_bind, require, if_neg fun hb => hbytes ⟨hfirst, hb⟩]
          rfl
        · rw [require, if_neg hfirst]
          rfl
  · refine .inr ⟨?_, ?_⟩
    · rintro ⟨hall, ⟨hpad, hpadEnd⟩, -⟩
      exact hrange ⟨hall.1, hall.2.1, hall.2.2, hpad, hpadEnd⟩
    · unfold completeWindow
      rw [require, if_neg hrange]
      rfl

/-- The layout of selected rows is cut into complete rows. -/
theorem sat_planChunks_selected {ε : Type} {rows columns elements : Int} {width : Nat}
    (hrows : 1 ≤ rows) (hcolumns : 1 ≤ columns) (hwidth : 1 ≤ width)
    (hfits : FitsI64 (rows * (columns * width))) {nBuffers : Int} (hbuffers : nBuffers < 2 ^ 31)
    (chunkSizeOverride : Nat) (totalBytes : Int) :
    (planChunks (selectedLayout rows columns elements totalBytes width) nBuffers
      chunkSizeOverride : Outcome ε ChunkSchedule).Sat fun schedule =>
        Tiles 0 schedule.chunks (rows * (columns * width)) ∧
        ∀ chunk ∈ schedule.chunks, chunk.Complete rows (columns * width) := by
  have hwide : (1 : Int) ≤ width := by exact_mod_cast hwidth
  have hrowBytes : 0 < columns * (width : Int) := mul_pos (by omega) (by omega)
  have hself := le_mul_of_one_le_left hrowBytes.le hrows
  have hcells := le_mul_of_one_le_right (show 0 ≤ columns by omega) hwide
  have hcount := le_mul_of_one_le_right (show 0 ≤ rows by omega)
    (show 1 ≤ columns * (width : Int) by omega)
  have hfit : ∀ x : Int, 0 ≤ x → x ≤ rows * (columns * width) → FitsI64 x := by
    intro x hx hle
    unfold FitsI64 at hfits ⊢
    omega
  have hplan : (planChunks (selectedLayout rows columns elements totalBytes width) nBuffers
      chunkSizeOverride : Outcome ε ChunkSchedule) =
        planRows (selectedLayout rows columns elements totalBytes width) (max nBuffers 1)
          chunkSizeOverride 0 rows (columns * width) rows := by
    have hcolumnsFit := hfit columns (by omega) (by omega)
    have hrowsFit := hfit rows (by omega) hcount
    have hspan : (innerSpan [rows, columns] [columns, 1] : Outcome ε Int) = .ok (columns - 1) := by
      show (sub64 columns 1 >>= fun last => mul64 last 1 >>= fun step =>
        add64 0 step >>= fun span => .ok span : Outcome ε Int) = _
      have hlast : FitsI64 (columns - 1) := by unfold FitsI64 at hcolumnsFit ⊢; omega
      rw [sub64, exact64_of_fits hlast, ok_bind, mul64, mul_one, exact64_of_fits hlast, ok_bind,
        add64, zero_add, exact64_of_fits hlast, ok_bind]
    unfold planChunks
    show (mul64 columns width >>= fun rowBytes => add64 rows 0 >>= fun padded =>
      add64 padded 0 >>= fun padded => innerSpan [rows, columns] [columns, 1] >>= fun span =>
        add64 span 1 >>= fun next => _ : Outcome ε ChunkSchedule) = _
    rw [mul64, exact64_of_fits (hfit _ hrowBytes.le hself), ok_bind, add64, add_zero,
      exact64_of_fits hrowsFit, ok_bind, add64, add_zero, exact64_of_fits hrowsFit, ok_bind, hspan,
      ok_bind, add64, sub_add_cancel, exact64_of_fits hcolumnsFit, ok_bind]
    exact if_neg (by omega)
  rw [hplan]
  unfold planRows
  rw [sat_bind]
  refine (sat_chunkTarget (by omega) _ _).mono fun target _ => ?_
  obtain ⟨hper, hperle⟩ := rowsOfTarget_bounds (show 0 < rows by omega)
    (hfit rows (by omega) hcount)
    target (columns * width)
  generalize rowsOfTarget target (columns * width) rows = rowsPerChunk at hper hperle
  have hcut : Cuttable 0 rows (columns * width) rowsPerChunk rows :=
    ⟨⟨le_refl 0, by omega, by omega, hrowBytes, hper⟩, hfits⟩
  rw [sat_bind]
  refine (sat_cutChunks hcut (le_refl 0) (by omega) (by omega)).mono fun chunks hchunks => ?_
  obtain ⟨htiles, -, hall⟩ := hchunks
  rw [zero_mul] at htiles
  refine sat_exact64_bind (hcut.fits_rows hper.le hperle).2 ?_
  exact ⟨htiles, fun chunk hmem => (hall chunk hmem).1.complete hrowBytes htiles hmem⟩

/-- The rows that a call asks for: all, or those of a chunk that has complete rows. -/
def DispatchProgram.Window (program : DispatchProgram) (rowBytes : Int) :
    Option Chunk → Int → Int → Prop
  | none, first, last => first = 0 ∧ last = program.rowCount
  | some chunk, first, last =>
      chunk.Complete program.rowCount rowBytes ∧ chunk.validBegin = first ∧ chunk.validEnd = last

namespace DispatchProgram.Ready

variable {program : DispatchProgram} {plan : IndexedRelocationPlan} (h : program.Ready plan)

include h

theorem rowWindow_cases (chunk : Option Chunk) :
    let rowBytes := program.indexedRowElements * byteWidth plan.result.elementType
    (∃ first last, program.rowWindow rowBytes chunk = .ok (first, last) ∧
        program.Window rowBytes chunk first last ∧
        0 ≤ first ∧ first < last ∧ last ≤ program.rowCount) ∨
      ((∀ first last, ¬ program.Window rowBytes chunk first last) ∧
        ∃ message, program.rowWindow rowBytes chunk = .error ⟨.invalidChunk, message⟩) := by
  intro rowBytes
  cases chunk with
  | none => exact .inl ⟨0, _, rfl, ⟨rfl, rfl⟩, le_refl 0, h.nonempty, le_refl _⟩
  | some chunk =>
      have hcounted := h.counted
      have hnonempty := h.nonempty
      have hbytes : 0 ≤ rowBytes :=
        mul_nonneg (by have := h.columns; omega) (Int.natCast_nonneg _)
      rcases completeWindow_cases ⟨.invalidChunk,
          "indexed chunk must contain complete selected rows"⟩
          (by unfold FitsI64; omega) hbytes (h.fits_rows (by omega) (le_refl _)).2 chunk with
        ⟨hcomplete, hwindow⟩ | ⟨hnot, hwindow⟩
      · exact .inl ⟨_, _, hwindow, ⟨hcomplete, rfl, rfl⟩, hcomplete.1⟩
      · exact .inr ⟨fun _ _ hrows => hnot hrows.1, _, hwindow⟩

/-- The rows one after the other. -/
theorem written_rows (source memory : Memory Nat) (first last : Int) :
    program.Written plan source first last memory
      (run ((intRange first last).flatMap (selectedCells program plan source first)) memory) := by
  have hcolumns := h.columns
  constructor
  · intro row column hrow hcolumn
    rw [run_apply]
    cases hcase : Writes.last ((intRange first last).flatMap
        (selectedCells program plan source first))
          ((row - first) * program.indexedRowElements + column) with
    | none =>
        exact absurd rfl (last_eq_none.mp hcase _ (List.mem_flatMap.mpr
          ⟨row, mem_intRange.mpr hrow, mem_selectedCells.mpr ⟨column, hcolumn, rfl⟩⟩))
    | some value =>
        obtain ⟨write, hwrite, hcell, rfl⟩ := exists_of_last hcase
        obtain ⟨row', -, hmem⟩ := List.mem_flatMap.mp hwrite
        obtain ⟨column', hcolumn', rfl⟩ := mem_selectedCells.mp hmem
        obtain ⟨hrows, rfl⟩ := cell_inj hcolumn' hcolumn hcell
        obtain rfl : row' = row := by omega
        rfl
  · intro cell hcell
    rw [run_apply, last_eq_none.mpr, Option.getD_none]
    intro write hwrite heq
    obtain ⟨row, hrow, hmem⟩ := List.mem_flatMap.mp hwrite
    obtain ⟨column, hcolumn, rfl⟩ := mem_selectedCells.mp hmem
    rw [mem_intRange] at hrow
    have hlo := mul_nonneg (show 0 ≤ row - first by omega)
      (show 0 ≤ program.indexedRowElements by omega)
    have hhi := mul_le_mul_of_nonneg_right (show row - first + 1 ≤ last - first by omega)
      (show 0 ≤ program.indexedRowElements by omega)
    rw [add_mul, one_mul] at hhi
    refine hcell ⟨?_, ?_⟩ <;> (rw [← heq]; dsimp only; omega)

/-- Workers on consecutive ranges of rows leave what one worker leaves. -/
theorem finishes_rows {call : RowsCall} (hprogram : call.program = program)
    (hinput : call.inputWidth = byteWidth plan.source.elementType)
    (houtput : call.outputWidth = byteWidth plan.result.elementType)
    (hunit : program.unitBytes plan + 2 ^ 16 < 2 ^ 63) {setting : Option Int}
    (hahead : 0 < indexedPrefetchRows setting →
      program.rowCount - 1 + indexedPrefetchRows setting < 2 ^ 63) {source memory : Memory Nat}
    {aligned : Bool} (hfirst : 0 ≤ call.first) (hlast : call.last ≤ program.rowCount)
    {parts : List (Int × Int)} (hparts : Partition call.first parts call.last)
    {result : Outcome ExecutionError (Memory Nat)}
    (hresult : Finishes (parts.map fun part => call.work setting source aligned part.1 part.2)
      memory result) :
    ∃ written, result = .ok written ∧
      program.Written plan source call.first call.last memory written := by
  let cells := fun part : Int × Int =>
    (intRange part.1 part.2).flatMap (selectedCells program plan source call.first)
  have hruns : (parts.map fun part => call.work setting source aligned part.1 part.2) =
      (parts.map cells).map .ok := by
    rw [List.map_map]
    refine List.map_congr_left fun part hmem => ?_
    obtain ⟨hlo, -, hhi⟩ := hparts.bounds hmem
    exact h.work_eq hprogram hinput houtput hunit hahead source aligned hfirst hlo
      (hhi.trans hlast)
  have hapart : Apart (parts.map cells) := by
    rw [Apart, List.pairwise_map]
    refine hparts.pairwise.imp fun hle x hx y hy heq => ?_
    obtain ⟨row, hrow, hmem⟩ := List.mem_flatMap.mp hx
    obtain ⟨row', hrow', hmem'⟩ := List.mem_flatMap.mp hy
    obtain ⟨column, hcolumn, rfl⟩ := mem_selectedCells.mp hmem
    obtain ⟨column', hcolumn', rfl⟩ := mem_selectedCells.mp hmem'
    have hsame := (cell_inj hcolumn hcolumn' heq).1
    rw [mem_intRange] at hrow hrow'
    omega
  rw [hruns] at hresult
  cases hresult with
  | written lists history hlists hinterleaves =>
      obtain rfl := List.map_injective_iff.mpr (fun _ _ => Outcome.ok.inj) hlists
      refine ⟨_, rfl, ?_⟩
      rw [run_interleaved hinterleaves hapart]
      have hall := hparts.flatMap_intRange 0 (selectedCells program plan source call.first)
      simp only [zero_add] at hall
      rw [← List.flatMap_def, hall]
      exact h.written_rows source memory call.first call.last
  | failed reason hmem =>
      obtain ⟨_, -, hmem⟩ := List.mem_map.mp hmem
      cases hmem
  | faulted kind hmem =>
      obtain ⟨_, -, hmem⟩ := List.mem_map.mp hmem
      cases hmem

end DispatchProgram.Ready

/-! ### Whole selections -/

/-- Every call for all stages either writes the rows it asks for, or is refused because its
    chunk does not have complete selected rows. -/
def DispatchProgram.RunsRows (setting : Option Int) (program : DispatchProgram)
    (plan : IndexedRelocationPlan) : Prop :=
  ∀ chunk aligned source memory result,
    ExecutesRows setting program 0 program.stages.length chunk aligned source memory result →
      (∃ first last written,
        program.Window (program.indexedRowElements * byteWidth plan.result.elementType)
          chunk first last ∧
        result = .ok written ∧ program.Written plan source first last memory written) ∨
      ((∀ first last, ¬ program.Window
          (program.indexedRowElements * byteWidth plan.result.elementType) chunk first last) ∧
        ∃ message, result = .error ⟨.invalidChunk, message⟩)

/-- A call for the whole result is not refused. -/
theorem DispatchProgram.RunsRows.whole {setting : Option Int} {program : DispatchProgram}
    {plan : IndexedRelocationPlan} (hruns : program.RunsRows setting plan)
    {source memory : Memory Nat} {result : Outcome ExecutionError (Memory Nat)}
    (h : ExecutesRows setting program 0 program.stages.length none true source memory result) :
    ∃ written, result = .ok written := by
  rcases hruns none true source memory result h with ⟨_, _, written, _, hok, _⟩ | ⟨hnone, _⟩
  · exact ⟨written, hok⟩
  · exact absurd ⟨rfl, rfl⟩ (hnone 0 program.rowCount)

/-- A call for the whole result whose checks fault writes nothing. -/
theorem DispatchProgram.not_runsRows {setting : Option Int} {program : DispatchProgram}
    {plan : IndexedRelocationPlan} {kind : Fault}
    (h : rowsPrologue program 0 program.stages.length none = .fault kind) :
    ¬ program.RunsRows setting plan := by
  intro hruns
  have hresult : ExecutesRows setting program 0 program.stages.length none true (fun _ => 0)
      (fun _ => 0) (.fault kind) := by
    rw [ExecutesRows, h]
  obtain ⟨_, hok⟩ := hruns.whole hresult
  cases hok

/-- A worker on all rows looks ahead of the last one too. -/
theorem RowsCall.fits_ahead {call : RowsCall} {setting : Option Int} {source : Memory Nat}
    {aligned : Bool} {first last : Int} {cells : List CellWrite} (hlt : first < last)
    (h : call.work setting source aligned first last = .ok cells)
    (hahead : 0 < indexedPrefetchRows setting) :
    FitsI64 (last - 1 + indexedPrefetchRows setting) := by
  simp only [RowsCall.work, bind_ok_iff] at h
  obtain ⟨_, -, _, hrows, -⟩ := h
  have hforall := mapEach_eq_ok.mp hrows
  have hmem : last - 1 ∈ intRange first last := mem_intRange.mpr ⟨by omega, by omega⟩
  obtain ⟨j, hj, hlast⟩ := List.getElem_of_mem hmem
  have hrow := hforall.get hj (hforall.length_eq ▸ hj)
  simp only [List.get_eq_getElem, hlast] at hrow
  simp only [RowsCall.rowCells, RowsCall.prefetch, if_pos hahead, bind_ok_iff] at hrow
  obtain ⟨_, ⟨_, hadd, -⟩, -⟩ := hrow
  exact (exact64_eq_ok.mp hadd).1

/-- The calls behave when the least share of a worker can be computed, and a prefetch can number
    the row it looks ahead to. -/
theorem DispatchProgram.Ready.runsRows_iff {program : DispatchProgram}
    {plan : IndexedRelocationPlan} (h : program.Ready plan) (setting : Option Int) :
    program.RunsRows setting plan ↔ program.unitBytes plan + 2 ^ 16 < 2 ^ 63 ∧
      (0 < indexedPrefetchRows setting →
        program.rowCount - 1 + indexedPrefetchRows setting < 2 ^ 63) := by
  constructor
  · intro hruns
    have hunit : program.unitBytes plan + 2 ^ 16 < 2 ^ 63 := by
      by_contra hover
      obtain ⟨kind, hfloor⟩ := h.floor_cases.2 hover
      have hprologue : rowsPrologue program 0 program.stages.length none = .fault kind := by
        rw [h.rowsPrologue_eq, hfloor]
        rfl
      exact DispatchProgram.not_runsRows hprologue hruns
    refine ⟨hunit, fun hahead => ?_⟩
    -- one worker that takes all rows
    obtain ⟨floor, hfloor⟩ := h.floor_cases.1 hunit
    have hnonempty := h.nonempty
    let call : RowsCall :=
      { program, inputWidth := byteWidth plan.source.elementType,
        outputWidth := byteWidth plan.result.elementType, first := 0, last := program.rowCount }
    let source : Memory Nat := fun _ => 0
    obtain ⟨result, hfinishes⟩ := exists_finishes
      [call.work setting source true 0 program.rowCount] (le_refl 1) source
    have hexecutes : ExecutesRows setting program 0 program.stages.length none true source source
        result := by
      rw [ExecutesRows, h.rowsPrologue_eq, hfloor]
      exact ⟨[(0, program.rowCount)], ⟨rfl, by omega, rfl⟩, hfinishes⟩
    obtain ⟨written, rfl⟩ := hruns.whole hexecutes
    cases hfinishes with
    | written lists history hlists _ =>
        obtain ⟨cells, _, -, hcells, -⟩ := List.map_eq_cons_iff.mp hlists.symm
        have hfits := RowsCall.fits_ahead (by omega) hcells.symm hahead
        unfold FitsI64 at hfits
        omega
  · rintro ⟨hunit, hahead⟩ chunk aligned source memory result hresult
    obtain ⟨floor, hfloor⟩ := h.floor_cases.1 hunit
    rw [ExecutesRows, h.rowsPrologue_eq, hfloor] at hresult
    rcases h.rowWindow_cases chunk with ⟨first, last, hwindow, hrows, hlo, hlt, hhi⟩ |
        ⟨hnone, message, hwindow⟩
    · rw [hwindow, ok_bind, ok_bind] at hresult
      obtain ⟨parts, hparts, hfinishes⟩ := hresult
      obtain ⟨written, rfl, hwritten⟩ :=
        h.finishes_rows rfl rfl rfl hunit hahead hlo hhi hparts hfinishes
      exact .inl ⟨first, last, written, hrows, rfl, hwritten⟩
    · rw [hwindow] at hresult
      exact .inr ⟨hnone, message, hresult⟩

/-- The planned chunks of the selected rows are calls for complete rows that tile the result. -/
theorem DispatchProgram.SelectsFrom.planned {program : DispatchProgram}
    {plan : IndexedRelocationPlan} {bound : IndexedBoundPlan} {operand : IndexOperand}
    {sourceRows : Int} {rowShape : List Int} {source : BufferView}
    (hprogram : program.SelectsFrom plan bound sourceRows source)
    (h : bound.Selects plan operand sourceRows rowShape) {nBuffers : Int}
    (hbuffers : nBuffers < 2 ^ 31) (chunkSizeOverride : Nat) :
    (planChunks program.plan.layout nBuffers chunkSizeOverride :
      Outcome ExecutionError ChunkSchedule).Sat fun schedule =>
        Tiles 0 schedule.chunks program.plan.destinationBytes ∧
        ∀ chunk ∈ schedule.chunks, ∃ first last, program.Window
          (program.indexedRowElements * byteWidth plan.result.elementType) (some chunk)
            first last := by
  have hready := hprogram.ready h
  have hlength := List.length_pos_iff.mpr h.nonempty
  have hcount : program.rowCount = bound.indices.length := by
    rw [DispatchProgram.rowCount, hprogram.indices]
  have hcolumns : program.indexedRowElements = rowShape.prod := by rw [hprogram.columns, h.row]
  have hbytes : bound.selected.destinationBytes =
      bound.indices.length * (rowShape.prod * byteWidth plan.result.elementType) := by
    rw [h.destinationBytes, mul_assoc]
  rw [hprogram.selected, h.layout, hcolumns]
  refine (sat_planChunks_selected (by omega) (one_le_prod h.extents.2) hready.width_pos.2
    (hbytes ▸ h.fits.2) hbuffers chunkSizeOverride _).mono fun schedule hschedule => ?_
  rw [hbytes]
  refine ⟨hschedule.1, fun chunk hmem => ⟨_, _, ?_, rfl, rfl⟩⟩
  rw [hcount]
  exact hschedule.2 chunk hmem

/-- Row selections end to end: both decoders of the index operand agree; binding and preparing
    compute their sizes without overflow and accept only rows of the table, in a view that has
    all of it; and the calls write the cast of the selected rows exactly when the bytes of a
    row at both ends leave room for a worker's least share, and the rows for the distance of the
    prefetch. -/
theorem decodeIndexedPlan_runsRows_iff {data : List UInt8} {plan : IndexedRelocationPlan}
    (hdecode : decodeIndexedPlan data = .ok plan) (littleEndian : Bool) (map : SymbolMap)
    (operand : IndexOperand) :
    bindIndexed littleEndian plan map operand = bindIndexed false plan map operand ∧
      (bindIndexed littleEndian plan map operand).Sat fun bound =>
        operand.Holds bound.indices ∧
        ∀ source : BufferView, source.Machine →
          (prepareIndexSelect bound source).Sat fun program =>
            program.rowIndices = bound.indices ∧
            (∀ row ∈ program.rowIndices, 0 ≤ row ∧ row < program.indexedSourceRows) ∧
            source.offsetBytes + program.indexedSourceRows * program.indexedRowElements *
              byteWidth plan.source.elementType ≤ source.capacityBytes ∧
            (∀ nBuffers, nBuffers < 2 ^ 31 → ∀ chunkSizeOverride,
              (planChunks program.plan.layout nBuffers chunkSizeOverride :
                Outcome ExecutionError ChunkSchedule).Sat fun schedule =>
                  Tiles 0 schedule.chunks program.plan.destinationBytes ∧
                  ∀ chunk ∈ schedule.chunks, ∃ first last, program.Window
                    (program.indexedRowElements * byteWidth plan.result.elementType)
                      (some chunk) first last) ∧
            ∀ setting, program.RunsRows setting plan ↔
              program.unitBytes plan + 2 ^ 16 < 2 ^ 63 ∧
              (0 < indexedPrefetchRows setting →
                program.rowCount - 1 + indexedPrefetchRows setting < 2 ^ 63) := by
  have hplan := (decodeIndexedPlan_eq_ok.mp hdecode).1
  refine ⟨bindIndexed_eq littleEndian plan map operand, ?_⟩
  refine (safe_bindIndexed hplan littleEndian map operand).sat_of_ok fun bound hbound => ?_
  obtain ⟨sourceRows, rowShape, hselects⟩ := bindIndexed_selects hbound
  refine ⟨hselects.held, fun source hsource => ?_⟩
  refine (sat_prepareIndexSelect hselects hsource).mono fun program hprogram => ?_
  have hready := hprogram.ready hselects
  refine ⟨hprogram.indices, hready.inside, ?_, fun nBuffers hbuffers chunkSizeOverride =>
    hprogram.planned hselects hbuffers chunkSizeOverride, hready.runsRows_iff⟩
  rw [hprogram.rows, hprogram.columns]
  exact hprogram.inside

/-! ### One row of a table -/

def pickDesc (extents : List Int) (elementType : ElementType) : TensorDesc where
  extents := extents.map fun extent => [.pushConst extent]
  strides := []
  offset := [.pushConst 0]
  elementType

/-- One row of a table of 32-bit floats, rounded to 16 bits. -/
def pickPlan (rows columns : Int) : IndexedRelocationPlan where
  symbols := []
  source := pickDesc [rows, columns] kF32
  indices := pickDesc [1] ⟨.integer, 64⟩
  result := pickDesc [1, columns] kF16
  axis := 0
  policy := NumericPolicyKind.bytes.toByte .ieeeRne

def pickOperand (row : UInt8) : IndexOperand where
  elementType := ⟨.integer, 64⟩
  extents := [1]
  bytes := [row, 0, 0, 0, 0, 0, 0, 0]

def pickView (rows columns : Nat) : BufferView where
  base := 64
  capacityBytes := rows * columns * 4
  offsetBytes := 0
  extents := [rows, columns]
  strides := [columns, 1]
  elementSize := 4
  kind := .host
  device := -1

/-- The bound plan of one row. -/
def pickBound (rows columns row : Int) : IndexedBoundPlan where
  selected := {
    layout := selectedLayout 1 columns columns (columns * 2) 2
    sourceExtents := [1, columns]
    resultExtents := [1, columns]
    sourceType := kF32
    resultType := kF16
    symbols := []
    stages := [selectedStage (pickPlan rows columns) [1, columns]]
    fills := []
    cuts := [⟨0, kF32, columns, columns * 4⟩, ⟨1, kF16, columns, columns * 2⟩]
    sourceBytes := columns * 4
    destinationBytes := columns * 2
    parameterBytes := 8
    requirements := ["host_index_select"] }
  sourceExtents := [rows, columns]
  indices := [row]
  rowElements := columns

def pickProgram (rows columns row : Int) : DispatchProgram where
  plan := (pickBound rows columns row).selected
  stages := [selectedArithmetic (pickPlan rows columns)]
  resultStrides := [columns, 1]
  sourceElements := columns
  resultElements := columns
  indexedSourceRows := rows
  indexedRowElements := columns
  rowIndices := [row]
  pooledTables := []
  pooledBags := 0
  pooledDim := 0

/-- The program of the second of two rows of three values runs, also where the prefetch is set to
    look as far ahead as a number can say. -/
theorem decodeIndexedPlan_runsRows_second :
    (prepareIndexSelect (pickBound 2 3 1) (pickView 2 3)) = .ok (pickProgram 2 3 1) ∧
      (pickProgram 2 3 1).RunsRows none (pickPlan 2 3) ∧
      (pickProgram 2 3 1).RunsRows (some (2 ^ 63 - 1)) (pickPlan 2 3) := by
  have hdecode : decodeIndexedPlan (writeIndexedPlan (pickPlan 2 3)) = .ok (pickPlan 2 3) := by
    decide +kernel
  have hbind : bindIndexed true (pickPlan 2 3) noSymbols (pickOperand 1) =
      .ok (pickBound 2 3 1) := by
    decide +kernel
  have hprepare : prepareIndexSelect (pickBound 2 3 1) (pickView 2 3) =
      .ok (pickProgram 2 3 1) := by
    decide +kernel
  have hview : (pickView 2 3).Machine := ⟨by decide, by decide⟩
  obtain ⟨-, h⟩ := decodeIndexedPlan_runsRows_iff hdecode true noSymbols (pickOperand 1)
  rw [hbind, sat_ok] at h
  have hprogram := h.2 (pickView 2 3) hview
  rw [hprepare, sat_ok] at hprogram
  obtain ⟨-, -, -, -, hruns⟩ := hprogram
  exact ⟨hprepare, (hruns none).mpr (by decide), (hruns (some (2 ^ 63 - 1))).mpr (by decide)⟩

/-- A row of 3 · 2^59 values passes every check, and the least share of a worker overflows. -/
theorem prepareIndexSelect_wide :
    decodeIndexedPlan (writeIndexedPlan (pickPlan 1 1729382256910270464)) =
        .ok (pickPlan 1 1729382256910270464) ∧
      bindIndexed true (pickPlan 1 1729382256910270464) noSymbols (pickOperand 0) =
        .ok (pickBound 1 1729382256910270464 0) ∧
      (pickView 1 1729382256910270464).Machine ∧
      prepareIndexSelect (pickBound 1 1729382256910270464 0) (pickView 1 1729382256910270464) =
        .ok (pickProgram 1 1729382256910270464 0) ∧
      rowsPrologue (pickProgram 1 1729382256910270464 0) 0 1 none = .fault .signedOverflow ∧
      ¬ (pickProgram 1 1729382256910270464 0).RunsRows none (pickPlan 1 1729382256910270464) := by
  have hprologue : rowsPrologue (pickProgram 1 1729382256910270464 0) 0 1 none =
      .fault .signedOverflow := by
    decide +kernel
  have hview : (pickView 1 1729382256910270464).Machine := ⟨by decide +kernel, by decide +kernel⟩
  exact ⟨by decide +kernel, by decide +kernel, hview, by decide +kernel, hprologue,
    DispatchProgram.not_runsRows hprologue⟩

end SymReloc
