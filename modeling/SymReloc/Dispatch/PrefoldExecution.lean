import SymReloc.Dispatch.PrefoldImage

/-!
# Prefolding and execution

For a program that `prefoldSpecFor` accepts, the executor's channel of an element is the row of
the layout, so that a prefold of the layout of the source leaves in the image what `executeHost`
writes.  The layout of the typed plan itself has elements of one byte, which `prefoldArtifact`
refuses (`prefold_eq_execution`).
-/

namespace SymReloc.Prefold

open Outcome Writes Quant

/-! ### Accepted programs -/

/-- What `prefoldSpecFor` establishes. -/
structure Accepts (program : Program) (stage : StageArithmetic) (spec : PrefoldSpec) : Prop where
  stages : program.stages = [stage]
  quantize : stage.transform = .quantize
  bare : program.plan.layout.padRegions = []
  rank : 2 ≤ program.plan.layout.extents.length
  packed : (packedElements (program.plan.layout.extents.zip program.plan.layout.dstStrides)).isSome
  output : spec.spec = .s8QuantPack →
    program.plan.layout.srcStrides = program.plan.layout.dstStrides
  scales : ∃ outer, program.plan.layout.extents[0]? = some outer ∧
    ((stage.perChannel = true ∧ stage.channelIsDim = true ∧ stage.channelDim = 0 ∧
        program.plan.layout.extents.head? = program.plan.resultExtents.head? ∧
        program.plan.layout.dstStrides.head? = program.resultStrides.head? ∧
        spec.invScales = stage.invScale) ∨
      (stage.perChannel = false ∧ ∃ invScale, stage.invScale[0]? = some invScale ∧
        spec.invScales = List.replicate outer.toNat invScale))

theorem onlyQuantize_eq_ok {program : Program} {stage : StageArithmetic}
    (h : onlyQuantize program = .ok stage) :
    program.stages = [stage] ∧ stage.transform = .quantize := by
  unfold onlyQuantize at h
  split at h
  · rename_i only hstages
    by_cases hquantize : only.transform = .quantize
    · rw [if_pos hquantize, Outcome.ok.injEq] at h
      exact ⟨h ▸ hstages, h ▸ hquantize⟩
    · rw [if_neg hquantize] at h
      cases h
  · cases h

theorem prefoldSpecFor_eq_ok {plan : TypedBoundPlan} {spec : PrefoldSpec}
    (h : prefoldSpecFor plan = .ok spec) :
    ∃ program stage, prepareProgram plan = .ok program ∧ Accepts program stage spec := by
  unfold prefoldSpecFor at h
  rw [bind_ok_iff] at h
  obtain ⟨program, hprogram, h⟩ := h
  rw [mapError_eq_ok] at hprogram
  dsimp only at h
  rw [bind_ok_iff] at h
  obtain ⟨stage, hstage, h⟩ := h
  obtain ⟨hstages, hquantize⟩ := onlyQuantize_eq_ok hstage
  have houtput : ∀ invScales, spec = ⟨if program.plan.layout.srcStrides =
      program.plan.layout.dstStrides then .s8QuantPack else .s8GatherQuant, invScales⟩ →
      spec.spec = .s8QuantPack →
        program.plan.layout.srcStrides = program.plan.layout.dstStrides := by
    rintro invScales rfl hpack
    by_contra hne
    rw [if_neg hne] at hpack
    cases hpack
  by_cases hchannel : stage.perChannel = true
  · simp only [bind_ok_iff, exists_unit, require_eq_ok, fetch_eq_ok, hchannel, if_true, pure_eq,
      Outcome.ok.injEq] at h
    obtain ⟨hbare, hrank, hpacked, outer, houter, ⟨hdim, hzero, hextent, hstride⟩,
      hspec⟩ := h
    refine ⟨program, stage, hprogram, hstages, hquantize, hbare, hrank, hpacked,
      houtput _ hspec.symm, outer, houter, .inl ⟨hchannel, hdim, hzero, hextent, hstride, ?_⟩⟩
    rw [← hspec]
  · simp only [bind_ok_iff, exists_unit, require_eq_ok, fetch_eq_ok, if_neg hchannel, pure_eq,
      Outcome.ok.injEq] at h
    obtain ⟨hbare, hrank, hpacked, outer, houter, invScale, hinv, hspec⟩ := h
    refine ⟨program, stage, hprogram, hstages, hquantize, hbare, hrank, hpacked,
      houtput _ hspec.symm, outer, houter, .inr ⟨by simpa using hchannel, invScale, hinv, ?_⟩⟩
    rw [← hspec]

namespace Accepts

variable {program : Program} {plan : TypedRelocationPlan} {stage : StageArithmetic}
  {spec : PrefoldSpec} {axis : WalkAxis} {rest : List WalkAxis} {source : Memory Nat}
  {call : HostCall} {row : Int} {move : Int × Int}

/-- The layout has rows, and its cells are the elements of the result. -/
theorem foldable (h : Accepts program stage spec) (hsound : program.Sound plan) :
    ∃ axis rest, Foldable program.plan.layout axis rest ∧
      program.resultElements = ((axis :: rest).map WalkAxis.extent).prod := by
  obtain ⟨axis, rest, haxes⟩ := hsound.walkAxes_eq
  have hlaid := hsound.laid
  have hbare : ∀ a ∈ axis :: rest, 1 ≤ a.extent ∧ a.lo = 0 ∧ a.hi = 0 := by
    intro a ha
    rw [← haxes] at ha
    obtain ⟨k, hk⟩ := List.mem_iff_getElem?.mp ha
    refine ⟨(hlaid.axes a ha).1, hsound.regioned.bare k a hk fun region hregion => ?_⟩
    rw [h.bare] at hregion
    cases hregion
  have hextents : program.plan.layout.extents = (axis :: rest).map WalkAxis.extent := by
    rw [hlaid.extents, haxes]
  have hstrides : program.plan.layout.dstStrides = (axis :: rest).map WalkAxis.dstStride := by
    rw [hlaid.strides, haxes]
  obtain ⟨elements, helements⟩ := Option.isSome_iff_exists.mp h.packed
  have hzip : program.plan.layout.extents.zip program.plan.layout.dstStrides =
      (axis :: rest).map fun axis => (axis.extent, axis.dstStride) := by
    have hself : (axis :: rest).zip (axis :: rest) =
        (axis :: rest).map fun axis => (axis, axis) := by
      rw [List.zip_eq_zipWith, List.zipWith_self]
    rw [hextents, hstrides, List.zip_map, hself, List.map_map]
    rfl
  rw [hzip] at helements
  obtain ⟨hrows, -⟩ := packedElements_eq_some helements hbare
  have hrank := h.rank
  have hne : rest ≠ [] := by
    rintro rfl
    rw [hextents] at hrank
    simp at hrank
  refine ⟨axis, rest, ⟨haxes, hrows, hne, hextents, hstrides, h.bare⟩, ?_⟩
  rw [hsound.elements.2, haxes]
  congr 1
  refine List.map_congr_left fun a ha => ?_
  obtain ⟨-, hlo, hhi⟩ := hbare a ha
  rw [WalkAxis.padded, hlo, hhi]
  ring

/-- The types of the two boundaries. -/
theorem widths (h : Accepts program stage spec) (hsound : program.Sound plan) :
    byteWidth (plan.boundaryType 0) = 4 ∧ byteWidth (plan.boundaryType 1) = 1 := by
  have hstage : program.stages[0]? = some stage := by rw [h.stages]; rfl
  have htyped := (hsound.stage_sound hstage).typed
  rw [StageArithmetic.Typed, h.quantize] at htyped
  obtain ⟨hin, hout⟩ := hsound.inputs 0 stage hstage
  rw [hin, hout] at htyped
  obtain ⟨⟨-, hinput⟩, -, houtput⟩ := htyped
  rw [byteWidth, byteWidth, hinput, houtput]
  exact ⟨rfl, rfl⟩

/-- The plan's own layout has the elements of the result, of one byte. -/
theorem elementSize_layout {map : SymbolMap} {bound : TypedBoundPlan}
    (h : Accepts program stage spec) (hsound : program.Sound plan) (hvalid : plan.Valid)
    (hbound : plan.BindsTo map bound) : bound.layout.elementSize = 1 := by
  have hstage : program.stages[0]? = some stage := by rw [h.stages]; rfl
  have htyped := (hsound.stage_sound hstage).typed
  rw [StageArithmetic.Typed, h.quantize, (hsound.inputs 0 stage hstage).2] at htyped
  have hlast := hsound.last
  rw [h.stages] at hlast
  have hbits : plan.layout.dst.elementType.bitwidth = 8 := by
    rw [hvalid.layout_result, ← hlast]
    exact htyped.2.2
  obtain ⟨layout, hlayout, hlayoutEq⟩ := hbound.layout
  obtain ⟨_, axes, -, -, -, hcoalesced⟩ := bind_coalesced hlayout
  have hsize := hcoalesced.size.2
  rw [hbits] at hsize
  rw [hlayoutEq]
  dsimp only
  omega

/-- The layout of the source: the plan's, with elements of four bytes. -/
theorem wire_source (h : Accepts program stage spec) (hsound : program.Sound plan) :
    program.wire 0 = .ok { program.plan.layout with
      elementSize := 4, totalBytes := program.resultElements * 4 } := by
  have hwidth := hsound.widthAt_eq (Nat.zero_le program.stages.length)
  rw [(h.widths hsound).1] at hwidth
  rw [Program.wire, Program.bytesAt, hwidth]
  rfl

/-! ### The channel of a row -/

/-- The cells of a row: a block of the outer stride. -/
theorem row_cell (hrows : Rows (axis :: rest))
    (hmove : move ∈ visits rest (row * axis.srcStride) (row * axis.dstStride)) :
    row * axis.dstStride ≤ move.2 ∧ move.2 < (row + 1) * axis.dstStride := by
  have hmem : move.2 ∈ (visits rest (row * axis.srcStride) (row * axis.dstStride)).map Prod.snd :=
    List.mem_map_of_mem hmove
  rw [hrows.2.2.map_snd_visits, List.mem_map] at hmem
  obtain ⟨k, hk, heq⟩ := hmem
  rw [mem_intRange, ← hrows.2.1] at hk
  rw [add_mul, one_mul]
  omega

theorem row_inside (hrows : Rows (axis :: rest)) (hrow : 0 ≤ row ∧ row < axis.extent)
    (hmove : move ∈ visits rest (row * axis.srcStride) (row * axis.dstStride)) :
    0 ≤ move.2 ∧ move.2 < ((axis :: rest).map WalkAxis.extent).prod := by
  have hcell := row_cell hrows hmove
  have hstride : 1 ≤ axis.dstStride := by
    rw [hrows.2.1]
    exact hrows.2.2.prod_pos
  have hlo := mul_nonneg hrow.1 (show 0 ≤ axis.dstStride by omega)
  have hhi := mul_le_mul_of_nonneg_right (Int.add_one_le_of_lt hrow.2)
    (show 0 ≤ axis.dstStride by omega)
  rw [List.map_cons, List.prod_cons, ← hrows.2.1]
  omega

/-- The channel of an element is its row, where the stage has channels. -/
theorem channelAt_row (h : Accepts program stage spec) (hsound : program.Sound plan)
    (hlayout : Foldable program.plan.layout axis rest)
    (helements : program.resultElements = ((axis :: rest).map WalkAxis.extent).prod)
    (hrow : 0 ≤ row ∧ row < axis.extent)
    (hmove : move ∈ visits rest (row * axis.srcStride) (row * axis.dstStride)) (channel : Int) :
    channelAt program (coordsOf program.resultStrides move.2) stage 0 = .ok channel ↔
      row < spec.invScales.length ∧ channel = if stage.perChannel then row else 0 := by
  have hstage : program.stages[0]? = some stage := by rw [h.stages]; rfl
  have hsized := (hsound.stage_sound hstage).sized
  rw [StageArithmetic.Sized, h.quantize] at hsized
  have hcell := row_cell hlayout.rows hmove
  have hinside := row_inside hlayout.rows hrow hmove
  have hstridePos : 1 ≤ axis.dstStride := by
    rw [hlayout.rows.2.1]
    exact hlayout.rows.2.2.prod_pos
  obtain ⟨outer, houter, ⟨hper, hdim, hzero, hextent, hstride, hscales⟩ |
    ⟨hper, invScale, -, hscales⟩⟩ := h.scales
  · rw [hlayout.extents, List.map_cons, List.head?_cons] at hextent
    rw [hlayout.strides, List.map_cons, List.head?_cons, hsound.strides] at hstride
    have hcoord : (coordsOf program.resultStrides move.2)[0]? = some row := by
      rw [hsound.strides, coordsOf_getElem? hsound.extents.2
        (by rw [← hsound.elements.1, helements]; exact hinside)
        (by rw [← List.head?_eq_getElem?]; exact hextent.symm)
        (by rw [← List.head?_eq_getElem?]; exact hstride.symm)]
      have hquotient : move.2 / axis.dstStride = row := by
        apply le_antisymm
        · exact Int.lt_add_one_iff.mp (Int.ediv_lt_of_lt_mul (by omega) hcell.2)
        · exact (Int.le_ediv_iff_mul_le (by omega)).mpr hcell.1
      rw [hquotient, Int.emod_eq_of_lt hrow.1 hrow.2]
    rw [channelAt, if_pos hper, selectChannel, if_pos hdim, hzero, if_pos hper, hscales, hsized]
    simp only [bind_ok_iff, exists_unit, fetch_eq_ok, require_eq_ok, hcoord, Option.some.injEq,
      pure_eq, Outcome.ok.injEq]
    constructor
    · rintro ⟨_, rfl, ⟨-, hlt⟩, rfl⟩
      exact ⟨hlt, rfl⟩
    · rintro ⟨hlt, rfl⟩
      exact ⟨_, rfl, ⟨hrow.1, hlt⟩, rfl⟩
  · rw [hlayout.extents, List.map_cons, List.getElem?_cons_zero, Option.some.injEq] at houter
    rw [channelAt, if_neg (by simp [hper]), if_neg (by simp [hper]), hscales,
      List.length_replicate, ← houter, Outcome.ok.injEq]
    constructor
    · rintro rfl
      exact ⟨by omega, rfl⟩
    · rintro ⟨-, rfl⟩
      rfl

/-- The scale of a row is the stage's own for the channel. -/
theorem invScale_row (h : Accepts program stage spec)
    (hlayout : Foldable program.plan.layout axis rest) (hrow : 0 ≤ row ∧ row < axis.extent) :
    stage.invScale.getD (if stage.perChannel then (if stage.perChannel then row else 0).toNat
      else 0) 0 = spec.invScales.getD row.toNat 0 := by
  obtain ⟨outer, houter, ⟨hper, -, -, -, -, hscales⟩ | ⟨hper, invScale, hinv, hscales⟩⟩ := h.scales
  · rw [if_pos hper, if_pos hper, hscales]
  · rw [hlayout.extents, List.map_cons, List.getElem?_cons_zero, Option.some.injEq] at houter
    rw [if_neg (by simp [hper]), hscales, List.getD_eq_getElem?_getD, hinv,
      List.getD_eq_getElem?_getD, List.getElem?_replicate, if_pos (by omega)]

/-! ### The executor -/

/-- A call of the whole program. -/
theorem call_state (h : Accepts program stage spec) (hsound : program.Sound plan)
    (hcall : call.Checked program 0 1 none source) :
    call.state.range = [(stage, 0)] ∧ call.state.widthFrom = 4 ∧ call.state.widthTo = 1 ∧
      call.state.origin = 0 ∧ call.window.origin = 0 ∧
      call.window.elements = program.resultElements := by
  obtain ⟨hfrom, hto⟩ := hcall.widths hsound
  obtain ⟨hwidthFrom, hwidthTo⟩ := h.widths hsound
  have hwindow := hcall.window
  simp only [resolveWindow, bind_ok_iff, fetch_eq_ok, pure_eq, Outcome.ok.injEq] at hwindow
  obtain ⟨outer, -, hwindow⟩ := hwindow
  have hone : 1 ≤ program.stages.length := hcall.range.2
  obtain ⟨only, honly, hrange⟩ := Program.range_cons Nat.zero_lt_one hone
  rw [h.stages, List.getElem?_cons_zero, Option.some.injEq] at honly
  rw [zero_add, Program.range_self, ← honly] at hrange
  refine ⟨hcall.range_eq.trans hrange, hfrom.trans hwidthFrom, hto.trans hwidthTo, ?_, ?_, ?_⟩
  · rw [hcall.program_eq.2.2.2.2, ← hwindow]
  · rw [← hwindow]
  · rw [← hwindow]

/-- Inside the result the step of a call is that of an element. -/
theorem step_eq_element (hsound : program.Sound plan)
    (hcall : call.Checked program 0 1 none source)
    (hinside : 0 ≤ move.2 ∧ move.2 < program.resultElements) :
    call.step move = element call.state move.1 move.2 := by
  rw [hcall.step_eq_plain hsound hinside, element, plainElement, hcall.program_eq.1,
    hcall.range_eq, hsound.applyRange_eq_stagesAt hinside fun entry hentry =>
      Program.mem_range hentry]

/-- The executor writes the element of a prefold, where its row has a scale. -/
theorem step_row (h : Accepts program stage spec) (hsound : program.Sound plan)
    (hlayout : Foldable program.plan.layout axis rest)
    (helements : program.resultElements = ((axis :: rest).map WalkAxis.extent).prod)
    (hcall : call.Checked program 0 1 none source) (hrow : 0 ≤ row ∧ row < axis.extent)
    (hmove : move ∈ visits rest (row * axis.srcStride) (row * axis.dstStride))
    (write : CellWrite) :
    call.step move = .ok write ↔ row < spec.invScales.length ∧
      write = QuantCell.write source ⟨move.1, move.2, spec.invScales.getD row.toNat 0⟩ := by
  obtain ⟨hrange, hfrom, hto, horigin, -, -⟩ := h.call_state hsound hcall
  have hinside := row_inside hlayout.rows hrow hmove
  rw [← helements] at hinside
  have hsource := hcall.program_eq.2.2.2.1
  have happly : ∀ bits, applyStage stage bits (if stage.perChannel then row else 0) =
      (quantizeOneF32S8 (bits % 2 ^ 32) (spec.invScales.getD row.toNat 0) % 2 ^ 8).toNat := by
    intro bits
    rw [applyStage, h.quantize, h.invScale_row hlayout hrow]
  rw [step_eq_element hsound hcall hinside, element, hcall.program_eq.1, hrange]
  simp only [applyRange, bind_ok_iff, h.channelAt_row hsound hlayout helements hrow hmove, pure_eq,
    Outcome.ok.injEq]
  have hbyte : ∀ q : Int, (q % 2 ^ 8).toNat % 2 ^ (8 * 1) = (q % 2 ^ 8).toNat := by
    intro q
    have := Int.emod_lt_of_pos q (show (0 : Int) < 2 ^ 8 by decide)
    have := Int.emod_nonneg q (show (2 : Int) ^ 8 ≠ 0 by decide)
    exact Nat.mod_eq_of_lt (by omega)
  have hstore : ∀ bits, call.state.storeBits move.2 bits = ⟨move.2, bits % 2 ^ (8 * 1)⟩ := by
    intro bits
    rw [WalkState.storeBits, horigin, hto, sub_zero]
  have hload : call.state.loadBits move.1 = source move.1 % 2 ^ (8 * 4) := by
    rw [WalkState.loadBits, hsource, hfrom]
  rw [hload]
  constructor
  · rintro ⟨_, ⟨_, ⟨hlt, rfl⟩, rfl⟩, rfl⟩
    refine ⟨hlt, ?_⟩
    rw [hstore, happly, hbyte, Nat.mod_mod]
    rfl
  · rintro ⟨hlt, rfl⟩
    refine ⟨_, ⟨_, ⟨hlt, rfl⟩, rfl⟩, ?_⟩
    rw [hstore, happly, hbyte, Nat.mod_mod]
    rfl

/-- The elements of a call are the rows of the layout. -/
theorem moves_eq (hlayout : Foldable program.plan.layout axis rest)
    (hcall : call.Checked program 0 1 none source) :
    call.moves = (intRange 0 axis.extent).flatMap fun row =>
      visits rest (row * axis.srcStride) (row * axis.dstStride) := by
  have hwindow := hcall.window
  simp only [resolveWindow, bind_ok_iff, fetch_eq_ok, pure_eq, Outcome.ok.injEq] at hwindow
  obtain ⟨outer, houter, hwindow⟩ := hwindow
  rw [hlayout.extents, List.map_cons, List.getElem?_cons_zero, Option.some.injEq] at houter
  rw [HostCall.moves, hcall.layout_eq, hlayout.axes, ← hwindow, ← houter, rangedVisits]
  refine List.flatMap_congr fun row _ => ?_
  rw [hlayout.rows.1.2.1, add_zero, zero_add, zero_add]

/-- The elements of a call are good exactly when every row has a scale. -/
theorem good_iff (h : Accepts program stage spec) (hsound : program.Sound plan)
    (hlayout : Foldable program.plan.layout axis rest)
    (helements : program.resultElements = ((axis :: rest).map WalkAxis.extent).prod)
    (hcall : call.Checked program 0 1 none source) :
    call.Good ↔ axis.extent ≤ spec.invScales.length := by
  obtain ⟨-, -, -, -, horigin, hwindow⟩ := h.call_state hsound hcall
  have hmoves := moves_eq hlayout hcall
  have hextent := hlayout.rows.1.1
  constructor
  · rintro ⟨-, hsteps⟩
    -- the first element of the last row
    have hpos := hlayout.rows.2.2.prod_pos
    obtain ⟨move, hmove⟩ : ∃ move, move ∈ visits rest ((axis.extent - 1) * axis.srcStride)
        ((axis.extent - 1) * axis.dstStride) := by
      have hfirst : (axis.extent - 1) * axis.dstStride + 0 ∈ (visits rest
          ((axis.extent - 1) * axis.srcStride) ((axis.extent - 1) * axis.dstStride)).map
            Prod.snd := by
        rw [hlayout.rows.2.2.map_snd_visits]
        exact List.mem_map_of_mem (mem_intRange.mpr ⟨le_refl 0, by omega⟩)
      obtain ⟨move, hmove, -⟩ := List.mem_map.mp hfirst
      exact ⟨move, hmove⟩
    have hrow : 0 ≤ axis.extent - 1 ∧ axis.extent - 1 < axis.extent := by omega
    obtain ⟨write, hwrite⟩ := hsteps move (hmoves ▸ List.mem_flatMap.mpr
      ⟨axis.extent - 1, mem_intRange.mpr hrow, hmove⟩)
    have := ((h.step_row hsound hlayout helements hcall hrow hmove write).mp hwrite).1
    omega
  · intro hscales
    have hrows : ∀ move ∈ call.moves, ∃ row, (0 ≤ row ∧ row < axis.extent) ∧
        move ∈ visits rest (row * axis.srcStride) (row * axis.dstStride) := by
      intro move hmove
      rw [hmoves, List.mem_flatMap] at hmove
      obtain ⟨row, hrow, hmove⟩ := hmove
      exact ⟨row, mem_intRange.mp hrow, hmove⟩
    constructor
    · intro move hmove
      obtain ⟨row, hrow, hmove⟩ := hrows move hmove
      rw [horigin, hwindow, helements, zero_add]
      exact row_inside hlayout.rows hrow hmove
    · intro move hmove
      obtain ⟨row, hrow, hmove⟩ := hrows move hmove
      exact ⟨_, (h.step_row hsound hlayout helements hcall hrow hmove _).mpr ⟨by omega, rfl⟩⟩

/-- A run that succeeds leaves in every cell the value of the prefold's element. -/
theorem written_eq (h : Accepts program stage spec) (hsound : program.Sound plan)
    (hlayout : Foldable program.plan.layout axis rest)
    (helements : program.resultElements = ((axis :: rest).map WalkAxis.extent).prod)
    (hcall : call.Checked program 0 1 none source) (hscales : axis.extent ≤ spec.invScales.length)
    (memory : Memory Nat) {cell : QuantCell}
    (hcell : cell ∈ allCells spec.invScales axis rest) :
    run (call.moves.map call.write) memory cell.dst = (cell.write source).value := by
  have hmoves := moves_eq hlayout hcall
  have horigin := (h.call_state hsound hcall).2.2.2.1
  have hwrites : call.moves.map call.write =
      (allCells spec.invScales axis rest).map (QuantCell.write source) := by
    rw [hmoves, allCells, List.map_flatMap, List.map_flatMap]
    refine List.flatMap_congr fun row hrow => ?_
    rw [mem_intRange] at hrow
    rw [rowCells, cellsOf, List.map_map]
    refine List.map_congr_left fun move hmove => ?_
    have hstep := (h.step_row hsound hlayout helements hcall hrow hmove _).mpr ⟨by omega, rfl⟩
    rw [HostCall.write, hstep]
    rfl
  rw [hwrites]
  exact run_of_nodup (nodup_cells hlayout.rows (List.Perm.refl _) source)
    (List.mem_map_of_mem hcell) memory

/-- Rows of a packed layout write apart, so that every kernel keeps the order. -/
theorem keepsOrder (hsound : program.Sound plan) (hlayout : Foldable program.plan.layout axis rest)
    (hcall : call.Checked program 0 1 none source) : call.KeepsOrder := by
  refine hcall.keepsOrder_of_disjoint hsound ?_
  rw [HostCall.rowsDisjoint, hcall.layout_eq, hlayout.axes]
  dsimp only
  rw [hlayout.rows.2.2.reach, hlayout.rows.2.1]

end Accepts

/-! ### Plans without pads -/

/-- A pad that was attached stays. -/
theorem attachPads_padded {plan : RelocationPlan} {symbols : List Int} {pads : List PadFill}
    {axes axes' : List ConcreteAxis} (h : attachPads plan symbols pads axes = .ok axes')
    (hpadded : pads ≠ [] ∨ ∃ axis ∈ axes, axis.padded = true) :
    ∃ axis ∈ axes', axis.padded = true := by
  induction pads generalizing axes with
  | nil =>
      cases h
      exact hpadded.resolve_left fun hne => hne rfl
  | cons pad rest ih =>
      rw [attachPads, bind_ok_iff] at h
      obtain ⟨middle, hpad, hrest⟩ := h
      obtain ⟨axis, lo, hi, haxis, -, -, -, -, rfl⟩ := attachPad_eq_ok hpad
      obtain ⟨hlt, -⟩ := List.getElem?_eq_some_iff.mp haxis
      exact ih hrest (.inr ⟨_, List.mem_set hlt _, rfl⟩)

/-- A layout that is bound without pad regions has no pads, so that a valid plan has no fills. -/
theorem fills_of_bare {plan : TypedRelocationPlan} {map : SymbolMap} {bound : TypedBoundPlan}
    (hvalid : plan.Valid) (hbound : plan.BindsTo map bound)
    (hbare : bound.layout.padRegions = []) : plan.fills = [] := by
  by_contra hfills
  obtain ⟨fill, hfill⟩ := List.exists_mem_of_ne_nil _ hfills
  obtain ⟨pad, -, hpad, -⟩ := hvalid.fills fill hfill
  have hpads : plan.layout.padFill ≠ [] := List.ne_nil_of_mem (lastPad_mem hpad).1
  obtain ⟨layout, hlayout, hlayoutEq⟩ := hbound.layout
  obtain ⟨symbols, axes, -, haxes, -, hcoalesced⟩ := bind_coalesced hlayout
  obtain ⟨runs, rfl, -, -, hregions, -⟩ := hcoalesced.runs
  simp only [concreteAxes, bind_ok_iff, exists_unit, require_eq_ok] at haxes
  obtain ⟨_, -, -, -, _, -, hattach⟩ := haxes
  obtain ⟨axis, haxis, hpadded⟩ := attachPads_padded hattach (.inl hpads)
  obtain ⟨run, hrun, haxis⟩ := List.mem_flatten.mp haxis
  obtain ⟨k, hk⟩ := List.mem_iff_getElem?.mp hrun
  have hregion := (hregions k run axis hk haxis hpadded).2.2
  rw [hlayoutEq] at hbare
  rw [show layout.padRegions = [] from hbare] at hregion
  cases hregion

/-- The checks of `executeHost` pass without fills. -/
theorem exists_prologue {program : Program} {plan : TypedRelocationPlan}
    (hsound : program.Sound plan) (hone : program.stages.length = 1) (hfills : plan.fills = [])
    (source : Memory Nat) : ∃ call, prologue program 0 1 none source = .ok call := by
  obtain ⟨axis, rest, haxes⟩ := hsound.walkAxes_eq
  have hnone : program.plan.fills = [] := hsound.fills.trans hfills
  have hfill : program.fillAt 1 = .ok none := by
    rw [Program.fillAt, hone, hnone]
    rfl
  have houter : fetch program.plan.layout.extents 0 = (.ok axis.extent :
      Outcome ExecutionError Int) := by
    rw [fetch_eq_ok, hsound.laid.extents, haxes]
    rfl
  have hsettled : program.padsSettledBy 1 = true := by
    rw [Program.padsSettledBy, hnone]
    rfl
  simp only [prologue, bind_ok_iff, exists_unit, require_eq_ok, pure_eq, Outcome.ok.injEq,
    resolveWindow]
  exact ⟨_, ⟨Nat.zero_le 1, hone.ge⟩, hsettled, _, hfill, _, hsound.widthAt_eq hone.ge, _,
    ⟨_, houter, rfl⟩, _, hsound.widthAt_eq (Nat.zero_le _), rfl⟩

/-- `executeHost` succeeds exactly when every row has a scale. -/
theorem Accepts.succeeds_iff {program : Program} {plan : TypedRelocationPlan}
    {stage : StageArithmetic} {spec : PrefoldSpec} {axis : WalkAxis} {rest : List WalkAxis}
    {source memory : Memory Nat} {call : HostCall} {aligned : Bool}
    {result : Outcome ExecutionError (Memory Nat)} (h : Accepts program stage spec)
    (hsound : program.Sound plan) (hlayout : Foldable program.plan.layout axis rest)
    (helements : program.resultElements = ((axis :: rest).map WalkAxis.extent).prod)
    (hcall : prologue program 0 1 none source = .ok call)
    (hexecutes : Executes program 0 1 none aligned source memory result) :
    (∃ written, result = .ok written) ↔ axis.extent ≤ spec.invScales.length := by
  have hruns : ∀ written, result = .ok written ↔ ∃ call',
      prologue program 0 1 none source = .ok call' ∧ call'.Good ∧
        written = run (call'.moves.map call'.write)
          (run (prefill call'.state.widthTo call'.window call'.fill) memory) := fun _ =>
    hsound.executes_eq_ok (fun call' hcall' =>
      keepsOrder hsound hlayout (prologue_eq_ok hcall')) hexecutes
  rw [← h.good_iff hsound hlayout helements (prologue_eq_ok hcall)]
  constructor
  · rintro ⟨written, hwritten⟩
    obtain ⟨call', hcall', hgood', -⟩ := (hruns written).mp hwritten
    rw [hcall, Outcome.ok.injEq] at hcall'
    exact hcall' ▸ hgood'
  · exact fun hgood => ⟨_, (hruns _).mpr ⟨call, hcall, hgood, rfl⟩⟩

/-! ### The image is what `executeHost` writes -/

/-- For a program that `prefoldSpecFor` accepts, `executeHost` succeeds exactly when every row of
    the layout has an inverse scale, and a prefold of the layout of the source then makes, for
    any number of workers, an image of the bytes that were written, each from one element of the
    walk and a scale that was returned.  Of the plan's own layout there is no artifact. -/
theorem prefold_eq_execution {data : List UInt8} {plan : TypedRelocationPlan} {map : SymbolMap}
    {parameters : ParameterMap} {bound : TypedBoundPlan} {spec : PrefoldSpec}
    (hdecode : decodeTypedPlan data = .ok plan)
    (hbind : bindTyped plan map parameters = .ok bound)
    (hspec : prefoldSpecFor bound = .ok spec) :
    ∃ (program : Program) (wire : BoundPlan) (outer : Int),
      prepareProgram bound = .ok program ∧ program.wire 0 = .ok wire ∧
      wire = { bound.layout with elementSize := 4, totalBytes := program.resultElements * 4 } ∧
      wire.extents[0]? = some outer ∧ imageBytes bound.layout spec.spec = none ∧
      ∀ aligned source memory result,
        Executes program 0 program.stages.length none aligned source memory result →
        ((∃ written, result = .ok written) ↔ outer ≤ spec.invScales.length) ∧
        ∀ written, result = .ok written → ∀ threads staging outcome,
          Prefolds wire source spec.spec spec.invScales threads (some staging) outcome →
          ∃ artifact, outcome = .ok (some artifact) ∧
            artifact.bytes = program.resultElements ∧
            (∀ cell, 0 ≤ cell → cell < artifact.bytes → artifact.image cell = written cell) ∧
            (artifact.cells.map QuantCell.dst).Perm (intRange 0 artifact.bytes) ∧
            (artifact.cells.map QuantCell.src).Perm
              ((visits wire.walkAxes 0 0).map Prod.fst) ∧
            ∀ cell ∈ artifact.cells, cell.invScale ∈ spec.invScales := by
  obtain ⟨program, stage, hprepare, haccepts⟩ := prefoldSpecFor_eq_ok hspec
  have hsound := Program.sound hdecode hbind hprepare
  have hbound := bindTyped_eq_ok hbind
  have hplan : program.plan = bound := (prepareProgram_eq_ok hprepare).1
  obtain ⟨axis, rest, hlayout, helements⟩ := haccepts.foldable hsound
  have hone : program.stages.length = 1 := by rw [haccepts.stages]; rfl
  have hfills := fills_of_bare (decodeTypedPlan_eq_ok.mp hdecode).1.valid hbound
    (hplan ▸ haccepts.bare)
  have hwire := haccepts.wire_source hsound
  have hfoldable : Foldable { program.plan.layout with
      elementSize := 4, totalBytes := program.resultElements * 4 } axis rest :=
    ⟨hlayout.axes, hlayout.rows, hlayout.rank, hlayout.extents, hlayout.strides, hlayout.bare⟩
  refine ⟨program, _, axis.extent, hprepare, hwire, by rw [hplan], ?_, ?_, ?_⟩
  · dsimp only
    rw [hlayout.extents]
    rfl
  · have hvalid := (decodeTypedPlan_eq_ok.mp hdecode).1.valid
    have hsize := haccepts.elementSize_layout hsound hvalid hbound
    rw [imageBytes, hsize]
    rfl
  · intro aligned source memory result hexecutes
    rw [hone] at hexecutes
    obtain ⟨call, hcall⟩ := exists_prologue hsound hone hfills source
    have hchecked := prologue_eq_ok hcall
    have hruns : ∀ written, result = .ok written ↔ ∃ call',
        prologue program 0 1 none source = .ok call' ∧ call'.Good ∧
          written = run (call'.moves.map call'.write)
            (run (prefill call'.state.widthTo call'.window call'.fill) memory) := fun _ =>
      hsound.executes_eq_ok (fun call' hcall' =>
        Accepts.keepsOrder hsound hlayout (prologue_eq_ok hcall')) hexecutes
    have hsucceeds := haccepts.succeeds_iff hsound hlayout helements hcall hexecutes
    refine ⟨hsucceeds, fun written hwritten threads staging outcome hprefolds => ?_⟩
    have hscales := hsucceeds.mp ⟨written, hwritten⟩
    obtain ⟨call', hcall', -, rfl⟩ := (hruns written).mp hwritten
    rw [hcall, Outcome.ok.injEq] at hcall'
    subst hcall'
    obtain ⟨artifact, houtcome, hfolds⟩ := hfoldable.prefolds rfl (by rw [helements])
      haccepts.output hscales hprefolds
    have hdst := hfolds.cells.map QuantCell.dst
    rw [map_dst_allCells hlayout.rows, ← hfolds.bytes] at hdst
    have hsrc := hfolds.cells.map QuantCell.src
    rw [map_src_allCells hlayout.rows] at hsrc
    refine ⟨artifact, houtcome, hfolds.bytes.trans helements.symm, ?_, hdst, ?_, ?_⟩
    · intro d hlo hhi
      obtain ⟨cell, hcell, rfl⟩ := List.mem_map.mp (hdst.mem_iff.mpr (mem_intRange.mpr ⟨hlo, hhi⟩))
      rw [hfolds.image cell hcell]
      exact (haccepts.written_eq hsound hlayout helements hchecked hscales _
        (hfolds.cells.mem_iff.mp hcell)).symm
    · rw [hfoldable.axes]
      exact hsrc
    · intro cell hcell
      obtain ⟨row, hrow, hcell⟩ := List.mem_flatMap.mp (hfolds.cells.mem_iff.mp hcell)
      rw [mem_intRange] at hrow
      obtain ⟨move, -, rfl⟩ := List.mem_map.mp hcell
      dsimp only
      rw [List.getD_eq_getElem?_getD, List.getElem?_eq_getElem (by omega)]
      exact List.getElem_mem _

/-! ### A transposed matrix -/

def byteDesc (extents : List Int) : TensorDesc :=
  { denseDesc extents with elementType := ⟨.integer, 8⟩ }

/-- Two rows of three values, transposed and quantized with a scale for each column. -/
def turned : TypedRelocationPlan where
  symbols := []
  source := denseDesc [2, 3]
  result := byteDesc [3, 2]
  layout :=
    { symbols := []
      src := denseDesc [2, 3]
      dst := byteDesc [3, 2]
      perm := [1, 0]
      axes := [{ constantAxis 3 1 with dstStride := [.pushConst 2] },
        { constantAxis 2 3 with dstStride := [.pushConst 1] }]
      padFill := []
      divisibility := []
      alignment := []
      contiguity := []
      noCopy := false
      runtimePadCheck := false
      inverse := [[.pushDim 1], [.pushDim 0]] }
  stages :=
    [{ transform := .quantize
       policy := .symmetricRne
       input := ⟨⟨.float, 32⟩, .signless⟩
       output := ⟨⟨.integer, 8⟩, .signed⟩
       shape := [[.pushConst 3], [.pushConst 2]]
       scale := .inline 1 ⟨.float, 32⟩ [0x40000000, 0x3f800000, 0x3f000000]
       zeroPoint := .none
       axis := 0
       channel := some [.pushDim 0] }]
  fills := []

def turnedBound : TypedBoundPlan where
  layout :=
    { extents := [3, 2]
      srcStrides := [1, 3]
      dstStrides := [2, 1]
      perm := [1, 0]
      padRegions := []
      elementSize := 1
      totalBytes := 6
      noCopy := false
      typed := true
      strategy := .singleThreadSimd
      L := 1
      requiredAlignments := [] }
  sourceExtents := [2, 3]
  resultExtents := [3, 2]
  sourceType := ⟨.float, 32⟩
  resultType := ⟨.integer, 8⟩
  symbols := []
  stages :=
    [{ transform := .quantize
       policy := .symmetricRne
       input := ⟨⟨.float, 32⟩, .signless⟩
       output := ⟨⟨.integer, 8⟩, .signed⟩
       shape := [3, 2]
       axis := 0
       channel := some [.pushDim 0]
       scale := some
         { elementType := ⟨.float, 32⟩
           length := 3
           bytes := [0, 0, 0, 64, 0, 0, 128, 63, 0, 0, 0, 63]
           bindingName := [] }
       zeroPoint := none }]
  fills := []
  cuts := [⟨0, ⟨.float, 32⟩, 6, 24⟩, ⟨1, ⟨.integer, 8⟩, 6, 6⟩]
  sourceBytes := 24
  destinationBytes := 6
  parameterBytes := 12
  requirements := ["typed_execution_dispatch"]

/-- The reciprocals of 2, 1 and 1/2. -/
def turnedSpec : PrefoldSpec := ⟨.s8GatherQuant, [0x3f000000, 0x3f800000, 0x40000000]⟩

theorem turned_accepted : decodeTypedPlan (writeTypedPlan turned) = .ok turned ∧
    bindTyped turned noSymbols noParameters = .ok turnedBound ∧
    prefoldSpecFor turnedBound = .ok turnedSpec := by
  decide +kernel

/-- A pool of one thread runs all rows itself. -/
theorem parallelFor_alone : ParallelFor 1 0 3 131072 [(0, 3)] := by
  have hperform : ∃ pool, (GatherPool.system 1).perform [.call 0 3 131072, .endOwn 0 none]
      (GatherPool.start 1) = some pool ∧ ∃ call, pool.calls[0]? = some call ∧
        call.phase = .returned none ∧
        (call.first, call.last, call.minPerWorker) = (0, 3, 131072) ∧
        [(0, 3)] = call.ended.map GatherPool.Invocation.range := by
    decide
  obtain ⟨pool, hpool, call, hcall, hphase, hrange, hended⟩ := hperform
  have hstart : (GatherPool.system 1).initial (GatherPool.start 1) := ⟨by decide, rfl⟩
  exact ⟨pool, 0, call, none, System.reachable_of_perform hstart hpool, hcall, hphase, hrange,
    hended⟩

def turnedWire : BoundPlan := { turnedBound.layout with elementSize := 4, totalBytes := 24 }

/-- A prefold of the transposed matrix. -/
theorem exists_prefolds_turned (source staging : Memory Nat) :
    ∃ outcome, Prefolds turnedWire source turnedSpec.spec turnedSpec.invScales 1 (some staging)
      outcome := by
  have hbytes : imageBytes turnedWire turnedSpec.spec = some 6 := by decide
  have hlaunches : Launches turnedWire 1 turnedSpec.spec [.gather 0 3] :=
    ⟨3, rfl, 2, rfl, [(0, 3)], parallelFor_alone, rfl⟩
  unfold Prefolds
  rw [hbytes]
  cases hrun : mapEach [Kernel.gather 0 3] (Kernel.run turnedWire turnedSpec.invScales) with
  | error reason => exact ⟨.error reason, _, hlaunches, by rw [hrun]⟩
  | fault kind => exact ⟨.fault kind, _, hlaunches, by rw [hrun]⟩
  | ok traces =>
      obtain ⟨trace, rfl⟩ : ∃ trace, traces = [trace] := by
        obtain ⟨trace, htrace⟩ := List.length_eq_one_iff.mp (mapEach_eq_ok.mp hrun).length_eq.symm
        exact ⟨trace, htrace⟩
      exact ⟨_, _, hlaunches, by rw [hrun]; exact ⟨_, interleaves_single _, rfl⟩⟩

/-- The matrix 1 2 3, 4 5 6 in patterns of `float`. -/
def turnedSource : Memory Nat := fun cell =>
  [0x3f800000, 0x40000000, 0x40400000, 0x40800000, 0x40a00000, 0x40c00000].getD cell.toNat 0

/-- The image has the columns one after the other, as `executeHost` writes them. -/
theorem prefold_eq_execution_turned : ∃ program written artifact,
    prepareProgram turnedBound = .ok program ∧
    Executes program 0 program.stages.length none true turnedSource (fun _ => 0) (.ok written) ∧
    Prefolds turnedWire turnedSource turnedSpec.spec turnedSpec.invScales 1 (some fun _ => 0)
      (.ok (some artifact)) ∧
    artifact.bytes = 6 ∧
    ∀ cell, 0 ≤ cell → cell < artifact.bytes → artifact.image cell = written cell := by
  obtain ⟨hdecode, hbind, hspec⟩ := turned_accepted
  obtain ⟨program, wire, outer, hprepare, -, hwireEq, houter, -, hruns⟩ :=
    prefold_eq_execution hdecode hbind hspec
  have hprogram : prepareProgram turnedBound = .ok
      { plan := turnedBound
        stages :=
          [{ transform := .quantize
             policy := .symmetricRne
             input := ⟨.float, 32⟩
             output := ⟨.integer, 8⟩
             scale := [0x40000000, 0x3f800000, 0x3f000000]
             invScale := [0x3f000000, 0x3f800000, 0x40000000]
             zeroPoint := []
             perChannel := true
             channelIsDim := true
             channelDim := 0
             channelLength := 3 }]
        resultStrides := [2, 1]
        sourceElements := 6
        resultElements := 6 } := by
    decide +kernel
  rw [hprogram, Outcome.ok.injEq] at hprepare
  subst hprepare
  obtain rfl : turnedWire = wire := hwireEq.symm
  obtain rfl : 3 = outer := by simpa [turnedWire, turnedBound] using houter
  obtain ⟨result, hexecutes⟩ := exists_executes _ 0 1 none true turnedSource fun _ => 0
  obtain ⟨hsucceeds, himage⟩ := hruns true turnedSource (fun _ => 0) result hexecutes
  obtain ⟨written, rfl⟩ := hsucceeds.mpr (by decide)
  obtain ⟨outcome, hprefolds⟩ := exists_prefolds_turned turnedSource fun _ => 0
  obtain ⟨artifact, rfl, hbytes, hcells, -⟩ := himage written rfl 1 _ outcome hprefolds
  exact ⟨_, written, artifact, hprogram, hexecutes, hprefolds, hbytes, hcells⟩

/-- The layout of the accepted plan has elements of one byte, and no source, scales or pool make
    an artifact of it, while `executeHost` succeeds. -/
theorem prefold_layout_refused : decodeTypedPlan (writeTypedPlan turned) = .ok turned ∧
    bindTyped turned noSymbols noParameters = .ok turnedBound ∧
    prefoldSpecFor turnedBound = .ok turnedSpec ∧
    (∀ source invScales threads staging outcome,
      Prefolds turnedBound.layout source turnedSpec.spec invScales threads staging outcome →
        outcome = .ok none) ∧
    ∃ program written, prepareProgram turnedBound = .ok program ∧
      Executes program 0 1 none true turnedSource (fun _ => 0) (.ok written) := by
  obtain ⟨hdecode, hbind, hspec⟩ := turned_accepted
  refine ⟨hdecode, hbind, hspec, fun source invScales threads staging outcome hprefolds => ?_, ?_⟩
  · have hnone : imageBytes turnedBound.layout turnedSpec.spec = none := by decide
    unfold Prefolds at hprefolds
    rw [hnone] at hprefolds
    exact hprefolds
  · obtain ⟨program, stage, hprepare, haccepts⟩ := prefoldSpecFor_eq_ok hspec
    have hsound := Program.sound hdecode hbind hprepare
    have hplan : program.plan = turnedBound := (prepareProgram_eq_ok hprepare).1
    obtain ⟨axis, rest, hlayout, helements⟩ := haccepts.foldable hsound
    have houter : [3, 2] = (axis :: rest).map WalkAxis.extent := by
      rw [← hlayout.extents, hplan]
      rfl
    have hthree : 3 = axis.extent := (List.cons.inj houter).1
    obtain ⟨call, hcall⟩ := exists_prologue hsound (by rw [haccepts.stages]; rfl) rfl turnedSource
    obtain ⟨result, hexecutes⟩ := exists_executes program 0 1 none true turnedSource fun _ => 0
    obtain ⟨written, rfl⟩ := (haccepts.succeeds_iff hsound hlayout helements hcall hexecutes).mpr
      (by rw [← hthree]; decide)
    exact ⟨program, written, hprepare, hexecutes⟩

end SymReloc.Prefold
