import SymReloc.Runtime.FastKernels
import SymReloc.Runtime.LayoutCells
import SymReloc.Runtime.TypedFootprints

/-!
# The cells a typed plan touches

The executor loads one source element for each index of the layout's axes and stores it at the
destination cell that the axes give it.  `bindTyped` compares the destination with the result in
number only, and the source not at all, so that the byte counts of a bound plan are those of the
loads and stores exactly where the strides of the layout are tight (`bindTyped_exact_iff`).
-/

namespace SymReloc

open Outcome Writes

/-! ### Tight layouts -/

/-- The layout addresses each element of a dense source once and stays inside the result, and
    addresses each element of the result where no fill is there to write it. -/
structure TypedRelocationPlan.Addresses (plan : TypedRelocationPlan)
    (sourceExtents resultExtents : List Int) (axes : List ConcreteAxis) : Prop where
  source : Strides.Numbers (axes.map ConcreteAxis.reading) sourceExtents.prod
  inside : ConcreteAxis.padShift axes + Strides.reach (axes.map ConcreteAxis.writing) <
    resultExtents.prod
  unfilled : plan.fills = [] →
    Strides.Numbers (axes.map ConcreteAxis.writing) resultExtents.prod

/-! ### What the executor touches -/

namespace TypedBoundPlan

variable (bound : TypedBoundPlan)

/-- The source elements that are loaded, in the order of the walk. -/
def reads : List Int := (visits bound.layout.walkAxes 0 0).map Prod.fst

/-- The destination elements that are written: all of them where there are fills, then those of
    the walk. -/
def writes : List Int :=
  (if bound.fills = [] then [] else intRange 0 bound.resultExtents.prod) ++
    (visits bound.layout.walkAxes 0 0).map Prod.snd

/-- The reads are counted each for itself: they are the elements of the dense source, every one
    once.  The writes are a set: they reach the elements of the result and no others, some of
    them twice where a fill comes first. -/
def TouchesAll : Prop :=
  bound.reads.Perm (intRange 0 bound.sourceExtents.prod) ∧
    ∀ cell, cell ∈ bound.writes ↔ 0 ≤ cell ∧ cell < bound.resultExtents.prod

variable {bound : TypedBoundPlan} {axes : List ConcreteAxis}

theorem reads_perm_iff (hsound : ∀ axis ∈ axes, axis.Sound)
    (hvisits : visits bound.layout.walkAxes 0 0 = visits (axes.map ConcreteAxis.walk) 0 0) :
    bound.reads.Perm (intRange 0 bound.sourceExtents.prod) ↔
      Strides.Numbers (axes.map ConcreteAxis.reading) bound.sourceExtents.prod := by
  rw [reads, hvisits, ConcreteAxis.visits_walk, List.map_map]
  exact (perm_intRange_iff (ConcreteAxis.inBox_reading axes)).trans
    (Strides.bijOn_iff_tight (ConcreteAxis.forward_reading hsound))

/-- The cells that are stored to. -/
theorem map_snd_visits
    (hvisits : visits bound.layout.walkAxes 0 0 = visits (axes.map ConcreteAxis.walk) 0 0) :
    (visits bound.layout.walkAxes 0 0).map Prod.snd =
      (indices (axes.map ConcreteAxis.extent)).map fun index => ConcreteAxis.padShift axes +
        Strides.offset (axes.map ConcreteAxis.writing) index := by
  rw [hvisits, ConcreteAxis.visits_walk, List.map_map]
  rfl

theorem stores_inside_iff (hsound : ∀ axis ∈ axes, axis.Sound)
    (hvisits : visits bound.layout.walkAxes 0 0 = visits (axes.map ConcreteAxis.walk) 0 0) :
    (∀ cell ∈ (visits bound.layout.walkAxes 0 0).map Prod.snd,
        0 ≤ cell ∧ cell < bound.resultExtents.prod) ↔
      ConcreteAxis.padShift axes + Strides.reach (axes.map ConcreteAxis.writing) <
        bound.resultExtents.prod := by
  have hforward := ConcreteAxis.forward_writing hsound
  have hshift := ConcreteAxis.padShift_nonneg hsound
  rw [map_snd_visits hvisits, List.forall_mem_map]
  constructor
  · intro h
    have hlast := Strides.inBox_lastIndex hforward
    have hcell := (h _ ((ConcreteAxis.inBox_writing axes _).mpr hlast)).2
    rwa [Strides.offset_lastIndex] at hcell
  · intro h index hindex
    have hbox := (ConcreteAxis.inBox_writing axes index).mp hindex
    have hnonneg := Strides.offset_nonneg hforward hbox
    have hle := Strides.offset_le_reach hforward hbox
    omega

/-- Without fills the stores reach the whole result exactly where its strides are tight: the
    result is not smaller than what is stored, so no two stores share a cell. -/
theorem stores_cover_iff (hsound : ∀ axis ∈ axes, axis.Sound)
    (hvisits : visits bound.layout.walkAxes 0 0 = visits (axes.map ConcreteAxis.walk) 0 0)
    (hcount : (axes.map ConcreteAxis.extent).prod ≤ bound.resultExtents.prod)
    (hinside : ConcreteAxis.padShift axes + Strides.reach (axes.map ConcreteAxis.writing) <
      bound.resultExtents.prod) :
    (∀ cell, 0 ≤ cell ∧ cell < bound.resultExtents.prod →
        cell ∈ (visits bound.layout.walkAxes 0 0).map Prod.snd) ↔
      Strides.Numbers (axes.map ConcreteAxis.writing) bound.resultExtents.prod := by
  have hforward := ConcreteAxis.forward_writing hsound
  have hshift := ConcreteAxis.padShift_nonneg hsound
  have hbox := ConcreteAxis.inBox_writing axes
  have hstores := (stores_inside_iff hsound hvisits).mpr hinside
  have hreach := hforward.reach_nonneg
  rw [map_snd_visits hvisits] at hstores ⊢
  rw [Strides.Numbers, ← Strides.bijOn_iff_tight hforward, ← perm_intRange_iff hbox]
  constructor
  · intro h
    have hperm := perm_intRange_of_covers h (by
      rw [List.length_map, ConcreteAxis.length_indices_extents hsound]
      exact hcount)
    -- the cell zero is one of them
    have hzero := hperm.mem_iff.mpr (mem_intRange.mpr ⟨le_refl 0, by omega⟩)
    obtain ⟨index, hindex, heq⟩ := List.mem_map.mp hzero
    have hoffset := Strides.offset_nonneg hforward ((hbox index).mp hindex)
    have hnone : ConcreteAxis.padShift axes = 0 := by omega
    simp only [hnone, zero_add] at hperm
    exact hperm
  · intro hperm cell hcell
    -- the last cell is reached without a shift
    have hlast := hperm.mem_iff.mpr (mem_intRange.mpr
      (show 0 ≤ bound.resultExtents.prod - 1 ∧
        bound.resultExtents.prod - 1 < bound.resultExtents.prod from ⟨by omega, by omega⟩))
    obtain ⟨index, hindex, heq⟩ := List.mem_map.mp hlast
    have hle := Strides.offset_le_reach hforward ((hbox index).mp hindex)
    have hnone : ConcreteAxis.padShift axes = 0 := by omega
    simp only [hnone, zero_add]
    exact hperm.mem_iff.mpr (mem_intRange.mpr hcell)

theorem touchesAll_iff {plan : TypedRelocationPlan} (hsound : ∀ axis ∈ axes, axis.Sound)
    (hvisits : visits bound.layout.walkAxes 0 0 = visits (axes.map ConcreteAxis.walk) 0 0)
    (hcount : (axes.map ConcreteAxis.extent).prod ≤ bound.resultExtents.prod)
    (hfills : bound.fills = plan.fills) :
    bound.TouchesAll ↔ plan.Addresses bound.sourceExtents bound.resultExtents axes := by
  have hreads := reads_perm_iff hsound hvisits
  have hinside := stores_inside_iff hsound hvisits
  have hcover := stores_cover_iff hsound hvisits hcount
  constructor
  · rintro ⟨hsource, hwrites⟩
    have hstores := hinside.mp fun cell hcell => (hwrites cell).mp (List.mem_append_right _ hcell)
    refine ⟨hreads.mp hsource, hstores, fun hnil => (hcover hstores).mp fun cell hcell => ?_⟩
    have hmem := (hwrites cell).mpr hcell
    rw [writes, if_pos (hfills.trans hnil), List.nil_append] at hmem
    exact hmem
  · intro h
    refine ⟨hreads.mpr h.source, fun cell => ?_⟩
    have hstores := hinside.mpr h.inside cell
    rw [writes, List.mem_append]
    by_cases hnil : bound.fills = []
    · rw [if_pos hnil, List.mem_nil_iff, false_or]
      exact ⟨hstores, (hcover h.inside).mpr (h.unfilled (hfills ▸ hnil)) cell⟩
    · rw [if_neg hnil, mem_intRange]
      exact ⟨fun hcell => hcell.elim id hstores, .inl⟩

end TypedBoundPlan

theorem agreedFill_isSome {program : Program} {boundary : Nat} {agreed result : Option Nat}
    {fills : List TypedFill} (h : program.agreedFill boundary agreed fills = .ok result) :
    result.isSome = (agreed.isSome || !fills.isEmpty) := by
  induction fills generalizing agreed with
  | nil =>
      cases h
      simp
  | cons fill rest ih =>
      simp only [Program.agreedFill, bind_ok_iff, exists_unit] at h
      obtain ⟨bits, -, -, hrest⟩ := h
      rw [ih hrest]
      simp

theorem fillAt_isSome {program : Program} {boundary : Nat} {fill : Option Nat}
    (h : program.fillAt boundary = .ok fill) : fill = none ↔ program.plan.fills = [] := by
  simp only [Program.fillAt, bind_ok_iff, exists_unit] at h
  obtain ⟨-, h⟩ := h
  by_cases hfills : program.plan.fills = []
  · rw [if_pos hfills] at h
    cases h
    simp [hfills]
  · rw [if_neg hfills, bind_ok_iff] at h
    obtain ⟨agreed, hagreed, h⟩ := h
    have hsome := agreedFill_isSome hagreed
    have hfill : fill = agreed := by
      split at h
      · cases h
        rfl
      · simp only [bind_ok_iff, exists_unit, pure_eq, Outcome.ok.injEq] at h
        exact h.2.symm
    rw [hfill]
    cases agreed with
    | none => simp [hfills] at hsome
    | some bits => simp [hfills]

/-- A call over the whole program reads and writes what the bound plan says. -/
theorem prologue_touches {bound : TypedBoundPlan} {program : Program} {source : Memory Nat}
    {call : HostCall} (hlaid : bound.layout.Laid) (hprepare : prepareProgram bound = .ok program)
    (h : prologue program 0 program.stages.length none source = .ok call) :
    call.moves.map Prod.fst = bound.reads ∧
      (prefill call.state.widthTo call.window call.fill).map Write.cell ++
        call.moves.map Prod.snd = bound.writes := by
  have hchecked := prologue_eq_ok h
  simp only [prepareProgram, bind_ok_iff, pure_eq, Outcome.ok.injEq] at hprepare
  obtain ⟨stages, -, rfl⟩ := hprepare
  have hlayout : call.layout = bound.layout := by
    rw [HostCall.layout, hchecked.state]
  have hwindow := hchecked.window
  simp only [resolveWindow, bind_ok_iff, fetch_eq_ok, pure_eq, Outcome.ok.injEq] at hwindow
  obtain ⟨outer, houter, hwindow⟩ := hwindow
  have hmoves : call.moves = visits bound.layout.walkAxes 0 0 := by
    cases haxes : bound.layout.walkAxes with
    | nil => exact absurd haxes hlaid.rank
    | cons axis rest =>
        rw [hlaid.extents, haxes] at houter
        have houterEq : outer = axis.extent := by simpa using houter.symm
        rw [HostCall.moves, hlayout, haxes, ← hwindow, houterEq]
        exact rangedVisits_full axis rest 0 0
  refine ⟨by rw [hmoves]; rfl, ?_⟩
  rw [hmoves, TypedBoundPlan.writes]
  congr 1
  have hfill := fillAt_isSome hchecked.fill
  have helements : call.window.elements = bound.resultExtents.prod := by rw [← hwindow]
  cases hcall : call.fill with
  | none => rw [if_pos (hfill.mp hcall)]; rfl
  | some bits =>
      have hne : bound.fills ≠ [] := fun hnil => by
        rw [hfill.mpr hnil] at hcall
        cases hcall
      rw [if_neg hne, prefill, List.map_map, helements]
      exact List.map_id _

/-! ### Exact footprints -/

/-- The counts of a bound plan are those of the chain and of what the executor touches. -/
structure TypedBoundPlan.Exact (plan : TypedRelocationPlan) (axes : List ConcreteAxis)
    (bound : TypedBoundPlan) : Prop where
  counts : bound.Counts plan axes
  runs : ∀ program source call, prepareProgram bound = .ok program →
    prologue program 0 program.stages.length none source = .ok call →
      call.moves.map Prod.fst = bound.reads ∧
        (prefill call.state.widthTo call.window call.fill).map Write.cell ++
          call.moves.map Prod.snd = bound.writes
  touches : bound.TouchesAll

theorem bindTyped_describes {plan : TypedRelocationPlan} {map : SymbolMap}
    {parameters : ParameterMap} {bound : TypedBoundPlan}
    (h : bindTyped plan map parameters = .ok bound) :
    (∃ layout, bind plan.layout map .auto = .ok layout ∧
      bound.layout = { layout with typed := true }) ∧
    (∃ symbols, resolveSymbols plan.layout.symbols map = .ok symbols ∧
      concreteDenseDescriptor plan.source symbols "source" = .ok bound.sourceExtents ∧
      concreteDenseDescriptor plan.result symbols "result" = .ok bound.resultExtents) ∧
    bound.fills = plan.fills := by
  simp only [bindTyped, bind_ok_iff, exists_unit, Prod.exists, mapError_eq_ok, pure_eq,
    Outcome.ok.injEq] at h
  obtain ⟨layout, hlayout, symbols, hsymbols, sourceExtents, hsource, resultExtents, hresult, -, _,
    _, -, -, _, -, _, -, _, -, _, -, _, -, _, -, -, _, -, -, rfl⟩ := h
  exact ⟨⟨layout, hlayout, rfl⟩, ⟨symbols, hsymbols, hsource, hresult⟩, rfl⟩

/-- The result is at least as large as what is stored: pads only widen. -/
theorem prod_extents_le {plan : TypedRelocationPlan} {axes : List ConcreteAxis}
    (hsound : ∀ axis ∈ axes, axis.Sound) (stage : Nat) :
    (axes.map ConcreteAxis.extent).prod ≤ (plan.tensorAt axes stage).prod := by
  rw [plan.tensorAt_eq]
  have hpos : ∀ (entries : List ConcreteAxis), (∀ axis ∈ entries, axis.Sound) →
      0 < (entries.map ConcreteAxis.extent).prod := by
    intro entries hentries
    rw [← ConcreteAxis.cells_writing]
    exact (ConcreteAxis.forward_writing hentries).cells_pos
  generalize 0 = first
  induction axes generalizing first with
  | nil => simp
  | cons axis axes ih =>
      have haxis := hsound axis List.mem_cons_self
      have hrest : ∀ a ∈ axes, a.Sound := fun a ha => hsound a (List.mem_cons_of_mem _ ha)
      rw [List.zipIdx_cons, List.map_cons, List.map_cons, List.prod_cons, List.prod_cons]
      have hle : axis.extent ≤ plan.extentAt stage (axis, first) := by
        have := haxis.pads
        rw [TypedRelocationPlan.extentAt]
        dsimp only
        split <;> omega
      exact mul_le_mul hle (ih hrest _) (hpos axes hrest).le (by have := haxis.extent; omega)

/-- The footprints of a typed plan are exact where the strides of its layout are tight, and only
    there.  The cuts are exact always. -/
theorem bindTyped_exact_iff {plan : TypedRelocationPlan} {map : SymbolMap}
    {parameters : ParameterMap} {bound : TypedBoundPlan}
    (h : bindTyped plan map parameters = .ok bound) :
    ∃ symbols sourceExtents resultExtents axes,
      resolveSymbols plan.layout.symbols map = .ok symbols ∧
      concreteDenseDescriptor plan.source symbols "source" = .ok sourceExtents ∧
      concreteDenseDescriptor plan.result symbols "result" = .ok resultExtents ∧
      concreteAxes plan.layout map = .ok axes ∧ bound.Counts plan axes ∧
      (bound.Exact plan axes ↔ plan.Addresses sourceExtents resultExtents axes) := by
  obtain ⟨⟨layout, hbind, hlayout⟩, ⟨symbols, hsymbols, hsource, hresult⟩, hfills⟩ :=
    bindTyped_describes h
  obtain ⟨_, axes, -, haxes, -, hcoalesced⟩ := bind_coalesced hbind
  have hsound := concreteAxes_sound haxes
  have hcounts := bindTyped_counts h haxes
  have hlaid : bound.layout.Laid := by
    obtain ⟨hlaid, -⟩ := bind_laid hbind
    rw [hlayout]
    exact ⟨hlaid.size, hlaid.rank, hlaid.axes, hlaid.extents, hlaid.strides, hlaid.outer,
      hlaid.padded, hlaid.total, hlaid.fits⟩
  have hvisits : visits bound.layout.walkAxes 0 0 = visits (axes.map ConcreteAxis.walk) 0 0 := by
    rw [hlayout]
    exact hcoalesced.visits_eq
  have hcount : (axes.map ConcreteAxis.extent).prod ≤ bound.resultExtents.prod := by
    rw [hcounts.result.1]
    exact prod_extents_le hsound _
  refine ⟨symbols, _, _, axes, hsymbols, hsource, hresult, haxes, hcounts, ?_⟩
  rw [← TypedBoundPlan.touchesAll_iff hsound hvisits hcount hfills]
  constructor
  · exact fun hexact => hexact.touches
  · intro htouches
    exact ⟨hcounts, fun program source call hprepare hcall =>
      prologue_touches hlaid hprepare hcall, htouches⟩

/-! ### A framed matrix -/

/-- The cast from f16 to f32. -/
def wideStage (extents : List Int) : ValueStage where
  transform := .cast
  policy := .exact
  input := ⟨⟨.float, 16⟩, .signless⟩
  output := ⟨⟨.float, 32⟩, .signless⟩
  shape := extents.map fun extent => [.pushConst extent]
  scale := .none
  zeroPoint := .none
  axis := -1
  channel := none

/-- A matrix is transposed and rounded to f16, gets a column of ones on either side, and is
    widened again. -/
def framed : TypedRelocationPlan where
  symbols := []
  source := denseDesc [3, 2]
  result := denseDesc [2, 5]
  layout :=
    { symbols := []
      src := denseDesc [3, 2]
      dst := denseDesc [2, 5]
      perm := [1, 0]
      axes := [{ constantAxis 2 1 with dstStride := [.pushConst 5] },
        { constantAxis 3 2 with dstStride := [.pushConst 1] }]
      padFill := [⟨1, [.pushConst 1], [.pushConst 1], ⟨.float, 32⟩, 0x3f800000⟩]
      divisibility := []
      alignment := []
      contiguity := []
      noCopy := false
      runtimePadCheck := false
      inverse := [[.pushDim 1], [.pushDim 0]] }
  stages := [halfStage [2, 3], wideStage [2, 5]]
  fills := [⟨1, 1, ⟨.float, 16⟩, 0x3c00⟩]

def framedBound : TypedBoundPlan where
  layout :=
    { extents := [2, 3]
      srcStrides := [1, 2]
      dstStrides := [5, 1]
      perm := [1, 0]
      padRegions := [⟨1, 1, 1, 0x3f800000⟩]
      elementSize := 4
      totalBytes := 40
      noCopy := false
      typed := true
      strategy := .singleThreadSimd
      L := 1
      requiredAlignments := [] }
  sourceExtents := [3, 2]
  resultExtents := [2, 5]
  sourceType := ⟨.float, 32⟩
  resultType := ⟨.float, 32⟩
  symbols := []
  stages :=
    [{ transform := .cast
       policy := .ieeeRne
       input := ⟨⟨.float, 32⟩, .signless⟩
       output := ⟨⟨.float, 16⟩, .signless⟩
       shape := [2, 3]
       axis := -1
       channel := none
       scale := none
       zeroPoint := none },
     { transform := .cast
       policy := .exact
       input := ⟨⟨.float, 16⟩, .signless⟩
       output := ⟨⟨.float, 32⟩, .signless⟩
       shape := [2, 5]
       axis := -1
       channel := none
       scale := none
       zeroPoint := none }]
  fills := [⟨1, 1, ⟨.float, 16⟩, 0x3c00⟩]
  cuts := [⟨0, ⟨.float, 32⟩, 6, 24⟩, ⟨1, ⟨.float, 16⟩, 10, 20⟩, ⟨2, ⟨.float, 32⟩, 10, 40⟩]
  sourceBytes := 24
  destinationBytes := 40
  parameterBytes := 0
  requirements := ["typed_execution_dispatch"]

/-- Six elements are read and rounded, and ten are widened and written. -/
theorem bindTyped_exact_framed : decodeTypedPlan (writeTypedPlan framed) = .ok framed ∧
    ∃ axes, concreteAxes framed.layout noSymbols = .ok axes ∧ framedBound.Exact framed axes := by
  have hbound : bindTyped framed noSymbols noParameters = .ok framedBound := by decide +kernel
  obtain ⟨symbols, source, result, axes, hsymbols, hsource, hresult, haxes, -, hexact⟩ :=
    bindTyped_exact_iff hbound
  cases hsymbols
  rw [show concreteDenseDescriptor framed.source [] "source" = .ok [3, 2] by decide +kernel,
    Outcome.ok.injEq] at hsource
  rw [show concreteDenseDescriptor framed.result [] "result" = .ok [2, 5] by decide +kernel,
    Outcome.ok.injEq] at hresult
  have haxes' : concreteAxes framed.layout noSymbols =
      .ok [⟨2, 1, 5, false, 0, 0, 0⟩, ⟨3, 2, 1, true, 1, 1, 0x3f800000⟩] := by decide +kernel
  rw [haxes', Outcome.ok.injEq] at haxes
  subst hsource hresult haxes
  refine ⟨by decide +kernel, _, haxes', hexact.mpr ⟨⟨by decide, ?_⟩, by decide, fun hnone => ?_⟩⟩
  · exact ⟨_, List.Perm.refl _, by decide⟩
  · cases hnone

/-! ### A source larger than its layout -/

/-- A cast over a layout of four elements, from a source of so many. -/
def quarter (elements : Int) : TypedRelocationPlan where
  symbols := []
  source := denseDesc [elements]
  result := halfDesc [4]
  layout :=
    { symbols := []
      src := denseDesc [4]
      dst := halfDesc [4]
      perm := [0]
      axes := [constantAxis 4 1]
      padFill := []
      divisibility := []
      alignment := []
      contiguity := []
      noCopy := false
      runtimePadCheck := false
      inverse := [[.pushDim 0]] }
  stages := [halfStage [4]]
  fills := []

def quarterBound (elements : Int) : TypedBoundPlan where
  layout :=
    { extents := [4]
      srcStrides := [1]
      dstStrides := [1]
      perm := [0]
      padRegions := []
      elementSize := 2
      totalBytes := 8
      noCopy := false
      typed := true
      strategy := .singleThreadSimd
      L := 4
      requiredAlignments := [] }
  sourceExtents := [elements]
  resultExtents := [4]
  sourceType := ⟨.float, 32⟩
  resultType := ⟨.float, 16⟩
  symbols := []
  stages :=
    [{ transform := .cast
       policy := .ieeeRne
       input := ⟨⟨.float, 32⟩, .signless⟩
       output := ⟨⟨.float, 16⟩, .signless⟩
       shape := [4]
       axis := -1
       channel := none
       scale := none
       zeroPoint := none }]
  fills := []
  cuts := [⟨0, ⟨.float, 32⟩, 4, 16⟩, ⟨1, ⟨.float, 16⟩, 4, 8⟩]
  sourceBytes := elements * 4
  destinationBytes := 8
  parameterBytes := 0
  requirements := ["typed_execution_dispatch"]

/-- A source of eight elements is accepted, and counted at 32 bytes.  Four elements enter the
    stage, and four are read. -/
theorem bindTyped_counts_unread : decodeTypedPlan (writeTypedPlan (quarter 8)) = .ok (quarter 8) ∧
    bindTyped (quarter 8) noSymbols noParameters = .ok (quarterBound 8) ∧
    (quarterBound 8).sourceBytes = 32 ∧ (quarterBound 8).reads = [0, 1, 2, 3] ∧
    ¬(quarterBound 8).TouchesAll := by
  refine ⟨by decide +kernel, by decide +kernel, by decide, by decide, fun htouches => ?_⟩
  have hlength := htouches.1.length_eq
  exact absurd hlength (by decide)

end SymReloc
