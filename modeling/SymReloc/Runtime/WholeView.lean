import SymReloc.Runtime.LayoutCells
import SymReloc.Runtime.PureView

/-!
# Views of a whole destination

A destination is announced as `totalBytes` bytes.  The published source and the copy are the same
destination where the positions of the view are just these bytes, and this is where the
destination strides of the plan are tight.  Strides that the compiler derives always are; strides
that the plan brings along need not be, and neither `isPureView` nor the runtime looks at them.
-/

namespace SymReloc

open Outcome

/-- For every source the view is published and the copy runs, and leaves the bytes of the view at
    the announced positions and the old bytes elsewhere. -/
def BoundPlan.Interchangeable (bound : BoundPlan) : Prop :=
  ∀ source, ∃ view, executeView bound source = some view ∧ ∀ memory, ∃ result,
    (executeH2D bound source memory : Outcome Unit _) = .ok result ∧ ∀ d,
      ((0 ≤ d ∧ d < bound.totalBytes) → result d = view.data d) ∧
      (¬ (0 ≤ d ∧ d < bound.totalBytes) → result d = memory d)

/-- What is interchangeable shows just the announced positions. -/
theorem BoundPlan.Interchangeable.shows {bound : BoundPlan} (h : bound.Interchangeable)
    (hlevel : bound.Level) : ∃ view, executeView bound (fun _ => 1) = some view ∧
      ∀ d, view.Shows d ↔ 0 ≤ d ∧ d < bound.totalBytes := by
  obtain ⟨view, hview, hcopy⟩ := h fun _ => 1
  obtain ⟨result, hresult, hbytes⟩ := hcopy fun _ => 0
  have hdata : view.data = fun _ => 1 := by rw [(executeView_eq_some.mp hview).2]
  have hagrees := hlevel.agrees hview hresult
  refine ⟨view, hview, fun d => ?_⟩
  constructor
  · intro hshows
    by_contra hout
    have hold := (hbytes d).2 hout
    rw [(hagrees d).1 hshows, hdata] at hold
    cases hold
  · intro hin
    by_contra hshows
    have hnew := (hbytes d).1 hin
    rw [(hagrees d).2 hshows, hdata] at hnew
    cases hnew

namespace PlanAttr.BindsView

variable {plan p : PlanAttr} {map : SymbolMap} {axes : List ConcreteAxis} {bound : BoundPlan}

theorem padShift_eq (h : p.BindsView map axes bound) : ConcreteAxis.padShift axes = 0 := by
  refine List.sum_eq_zero fun shift hmem => ?_
  obtain ⟨axis, haxis, rfl⟩ := List.mem_map.mp hmem
  rw [((h.binds.sound axis haxis).bare (h.levels axis haxis).bare).1, zero_mul]

/-- The walk visits the cells of the destination strides, on both sides. -/
theorem mem_visits_iff (h : p.BindsView map axes bound) (cell : Int × Int) :
    cell ∈ visits bound.walkAxes 0 0 ↔ ∃ k ∈ (indices (axes.map ConcreteAxis.extent)).map
      (Strides.offset (axes.map ConcreteAxis.writing)), cell = (k, k) := by
  have hsides : axes.map ConcreteAxis.reading = axes.map ConcreteAxis.writing := by
    refine List.map_congr_left fun axis hmem => ?_
    rw [ConcreteAxis.reading, ConcreteAxis.writing, (h.levels axis hmem).stride]
  rw [h.visited, ConcreteAxis.visits_walk, hsides, h.padShift_eq]
  simp only [List.mem_map, zero_add, exists_exists_and_eq_and, eq_comm (a := cell)]

theorem interchangeable (h : p.BindsView map axes bound)
    (hcells : ∀ cell, cell ∈ visits bound.walkAxes 0 0 ↔
      ∃ k, (0 ≤ k ∧ k < (axes.map ConcreteAxis.extent).prod) ∧ cell = (k, k)) :
    bound.Interchangeable := by
  intro source
  obtain ⟨view, hview⟩ := h.published source
  refine ⟨view, hview, fun memory => ?_⟩
  obtain ⟨result, hresult⟩ := h.level.exists_executeH2D hcells h.total h.small source memory
  have hagrees := h.level.agrees hview hresult
  refine ⟨result, hresult, fun d => ?_⟩
  rw [← h.level.shows_packed hcells h.total hview]
  exact hagrees d

/-- The view and the copy are interchangeable exactly where the cells of the destination strides
    are those of an interval, each once. -/
theorem interchangeable_iff (h : p.BindsView map axes bound) :
    bound.Interchangeable ↔ ((indices (axes.map ConcreteAxis.extent)).map
      (Strides.offset (axes.map ConcreteAxis.writing))).Perm
        (intRange 0 (axes.map ConcreteAxis.extent).prod) := by
  have hes : (0 : Int) < bound.elementSize := by exact_mod_cast h.level.size
  constructor
  · intro hsame
    obtain ⟨view, hview, hshows⟩ := hsame.shows h.level
    obtain ⟨axis, rest, haxes, -⟩ := h.level.outer
    refine perm_intRange_of_covers (fun cell hcell => ?_) (le_of_eq ?_)
    · -- the first byte of the cell is shown, and by no other cell
      have hbyte : view.Shows (cell * bound.elementSize) := by
        rw [hshows, h.total]
        exact ⟨mul_nonneg hcell.1 hes.le, mul_lt_mul_of_pos_right hcell.2 hes⟩
      have hgathers := (h.level.gathers_iff hview haxes).mpr ⟨hbyte, rfl⟩
      rw [haxes, gathers_iff_visits, ← haxes] at hgathers
      obtain ⟨_, hvisit, j, hj, hjlt, hd, -⟩ := hgathers
      obtain ⟨k, hk, rfl⟩ := (h.mem_visits_iff _).mp hvisit
      have hsame := (element_inj ⟨le_refl 0, hes⟩ ⟨hj, hjlt⟩ ((add_zero _).trans hd)).1
      rw [hsame]
      exact hk
    · rw [List.length_map, ConcreteAxis.length_indices_extents h.binds.sound]
  · intro hperm
    refine h.interchangeable fun cell => ?_
    rw [h.mem_visits_iff]
    simp only [hperm.mem_iff, mem_intRange]

end PlanAttr.BindsView

/-- A plan with the flag binds to a view, and wherever the copy runs the two show the same bytes at
    the same positions.  They are interchangeable where the compiler derives the destination
    strides, and else exactly where some order of the axes is tight. -/
theorem PlanAttr.views_iff {plan p : PlanAttr} {map : SymbolMap} {override : Strategy}
    {bound : BoundPlan} (hcanonical : canonicalizePlan wrap64 plan = some p)
    (hfields : p.Int64Fields) (hview : p.noCopy = true)
    (hbind : bind p.toWire map override = .ok bound) :
    (∀ source, ∃ view, executeView bound source = some view ∧ ∀ memory result,
      (executeH2D bound source memory : Outcome Unit _) = .ok result →
        view.Agrees memory result) ∧
    (plan.dst.strides = [] → plan.inverse.isPermutation = true → bound.Interchangeable) ∧
    ∃ axes, concreteAxes p.toWire map = .ok axes ∧
      (bound.Interchangeable ↔ ∃ order : List Strides.Axis,
        order.Perm (axes.map ConcreteAxis.writing) ∧ Strides.Tight 1 order) := by
  obtain ⟨axes, h⟩ := exists_bindsView hcanonical hfields hview hbind
  refine ⟨fun source => ?_, fun hstrides hinverse => ?_, axes, h.concrete, ?_⟩
  · obtain ⟨view, hsome, hagrees, -⟩ := views hcanonical hfields hview hbind source
    exact ⟨view, hsome, hagrees⟩
  · exact h.interchangeable (h.mem_visits hcanonical hview hstrides hinverse)
  · rw [h.interchangeable_iff, perm_intRange_iff (ConcreteAxis.inBox_writing axes),
      Strides.bijOn_iff_tight (ConcreteAxis.forward_writing h.binds.sound),
      ConcreteAxis.cells_writing]
    exact and_iff_right rfl

/-! ### A matrix with and without destination strides -/

/-- A copy of a `2 × 3` matrix between rows of the same stride. -/
def rowsPlan (stride : Int) (strides : List SymExpr)
    (hstrides : strides = [] ∨ strides.length = 2) : PlanAttr where
  src := ⟨[.constant 2, .constant 3], [.constant stride, .constant 1], .constant 0, .f32, .inr rfl,
    MlirType.isTensorElement_f32⟩
  dst := ⟨[.constant 2, .constant 3], strides, .constant 0, .f32, hstrides,
    MlirType.isTensorElement_f32⟩
  perm := [0, 1]
  axes := [⟨[97], .constant 2, .constant stride, .constant stride⟩,
    ⟨[98], .constant 3, .constant 1, .constant 1⟩]
  padFill := []
  divisibility := []
  alignment := []
  contiguity := []
  noCopy := false
  runtimePadCheck := false
  inverse := ⟨2, 0, [.dim 0, .dim 1], by decide⟩

/-- Its canonical form where the destination is packed: one axis. -/
def packedRows : PlanAttr where
  src := ⟨[.constant 2, .constant 3], [.constant 3, .constant 1], .constant 0, .f32, .inr rfl,
    MlirType.isTensorElement_f32⟩
  dst := ⟨[.constant 6], [], .constant 0, .f32, .inl rfl, MlirType.isTensorElement_f32⟩
  perm := [0]
  axes := [⟨[100, 48], .constant 6, .constant 1, .constant 1⟩]
  padFill := []
  divisibility := []
  alignment := []
  contiguity := [true]
  noCopy := true
  runtimePadCheck := false
  inverse := ⟨1, 0, [.dim 0], by decide⟩

/-- Its canonical form where the rows of both sides lie seven elements apart. -/
def spacedRows : PlanAttr where
  src := ⟨[.constant 2, .constant 3], [.constant 7, .constant 1], .constant 0, .f32, .inr rfl,
    MlirType.isTensorElement_f32⟩
  dst := ⟨[.constant 2, .constant 3], [.constant 7, .constant 1], .constant 0, .f32, .inr rfl,
    MlirType.isTensorElement_f32⟩
  perm := [0, 1]
  axes := [⟨[100, 48], .constant 2, .constant 7, .constant 7⟩,
    ⟨[100, 49], .constant 3, .constant 1, .constant 1⟩]
  padFill := []
  divisibility := []
  alignment := []
  contiguity := [false, true]
  noCopy := true
  runtimePadCheck := false
  inverse := ⟨2, 0, [.dim 0, .dim 1], by decide⟩

def packedBound : BoundPlan where
  extents := [6]
  srcStrides := [1]
  dstStrides := [1]
  perm := [0]
  padRegions := []
  elementSize := 4
  totalBytes := 24
  noCopy := true
  typed := false
  strategy := .viewNoCopy
  L := 6
  requiredAlignments := []

def spacedBound : BoundPlan where
  extents := [2, 3]
  srcStrides := [7, 1]
  dstStrides := [7, 1]
  perm := [0, 1]
  padRegions := []
  elementSize := 4
  totalBytes := 24
  noCopy := true
  typed := false
  strategy := .viewNoCopy
  L := 3
  requiredAlignments := []

/-- The packed plan, by the compiler's strides and by the strides as they are. -/
theorem packedRows_views : packedBound.Interchangeable ∧
    ∃ axes, concreteAxes packedRows.toWire noSymbols = .ok axes ∧ ∃ order : List Strides.Axis,
      order.Perm (axes.map ConcreteAxis.writing) ∧ Strides.Tight 1 order := by
  have hfields : packedRows.Int64Fields :=
    ⟨by simp [packedRows, PlanAttr.exprs, TensorDescAttr.exprs, AxisInfoAttr.exprs,
        SymExpr.ConstantsFit, FitsI64], by simp [packedRows], by simp [packedRows],
      by simp [packedRows, AffineExpr.ConstantsFit]⟩
  have hcanonical : canonicalizePlan wrap64 (rowsPlan 3 [] (.inl rfl)) = some packedRows := rfl
  have hbind : bind packedRows.toWire noSymbols .auto = .ok packedBound := by decide +kernel
  obtain ⟨-, hderived, axes, haxes, hexact⟩ := PlanAttr.views_iff hcanonical hfields rfl hbind
  have hsame := hderived rfl (by decide)
  exact ⟨hsame, axes, haxes, hexact.mp hsame⟩

/-- With strides of its own the destination has a gap inside its length, which the copy
    leaves alone, and the copy goes beyond that length. -/
theorem spacedRows_gap :
    (rowsPlan 7 [.constant 7, .constant 1] (.inr rfl)).verify wrap64 = .ok () ∧
      canonicalizePlan wrap64 (rowsPlan 7 [.constant 7, .constant 1] (.inr rfl)) =
        some spacedRows ∧
      spacedRows.noCopy = true ∧ bind spacedRows.toWire noSymbols .auto = .ok spacedBound ∧
      spacedBound.totalBytes = 24 ∧
      (∃ result, (executeH2D spacedBound (fun _ => 1) (fun _ => 0) : Outcome Unit _) =
        .ok result ∧ result 12 = 0 ∧ result 28 = 1) ∧
      ¬ spacedBound.Interchangeable := by
  have hrun : ∃ result, (executeH2D spacedBound (fun _ => 1) (fun _ => 0) : Outcome Unit _) =
      .ok result ∧ result 12 = 0 ∧ result 28 = 1 := ⟨_, rfl, by decide +kernel, by decide +kernel⟩
  refine ⟨by decide +kernel, rfl, rfl, by decide +kernel, rfl, hrun, fun hsame => ?_⟩
  obtain ⟨result, hresult, -, hbeyond⟩ := hrun
  obtain ⟨view, -, hcopy⟩ := hsame fun _ => 1
  obtain ⟨result', hresult', hbytes⟩ := hcopy fun _ => 0
  rw [hresult, Outcome.ok.injEq] at hresult'
  have hold := (hbytes 28).2 (by decide)
  rw [← hresult', hbeyond] at hold
  cases hold

end SymReloc
