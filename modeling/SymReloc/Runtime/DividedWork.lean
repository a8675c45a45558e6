import Mathlib.Algebra.Order.BigOperators.Group.List
import SymReloc.Runtime.PlainWalk

/-!
# Divided work

The units of a call are rows, or blocks of rows of a transpose.  Workers that divide
them have together the elements of all rows, and where rows are disjoint no two of them
write one cell.
-/

namespace SymReloc

open Outcome Writes

/-! ### Rows -/

theorem mem_rangedVisits {axis : WalkAxis} {axes : List WalkAxis} {first last src dst : Int}
    {move : Int × Int} : move ∈ rangedVisits (axis :: axes) first last src dst ↔
      ∃ i, (first ≤ i ∧ i < last) ∧
        move ∈ visits axes (src + i * axis.srcStride) (dst + (i + axis.lo) * axis.dstStride) := by
  simp only [rangedVisits, List.mem_flatMap, mem_intRange]

/-- The cells of a row lie within the span of the inner axes. -/
theorem visits_span {axes : List WalkAxis} (h : ∀ axis ∈ axes, 0 ≤ axis.dstStride)
    {src dst : Int} {move : Int × Int} (hmem : move ∈ visits axes src dst) :
    dst + (axes.map fun axis => axis.lo * axis.dstStride).sum ≤ move.2 ∧
      move.2 ≤ dst + (axes.map fun axis => axis.lo * axis.dstStride).sum +
        (axes.map fun axis => (axis.extent - 1) * axis.dstStride).sum := by
  induction axes generalizing src dst with
  | nil =>
      rw [visits, List.mem_singleton] at hmem
      rw [hmem]
      simp
  | cons axis rest ih =>
      rw [List.forall_mem_cons] at h
      simp only [visits, List.mem_flatMap, mem_intRange] at hmem
      obtain ⟨i, hi, hmove⟩ := hmem
      have hrest := ih h.2 hmove
      have hlow : 0 ≤ i * axis.dstStride := mul_nonneg hi.1 h.1
      have hhigh : i * axis.dstStride ≤ (axis.extent - 1) * axis.dstStride :=
        mul_le_mul_of_nonneg_right (by omega) h.1
      have hsplit :
          (i + axis.lo) * axis.dstStride = i * axis.dstStride + axis.lo * axis.dstStride :=
        add_mul _ _ _
      simp only [List.map_cons, List.sum_cons]
      omega

/-- Rows that are apart do not share a cell. -/
theorem row_eq_of_cell_eq {axis : WalkAxis} {axes : List WalkAxis}
    (haxes : ∀ other ∈ axes, 0 ≤ other.dstStride)
    (hdisjoint : (axes.map fun other => (other.extent - 1) * other.dstStride).sum + 1 ≤
      axis.dstStride) {i i' src src' : Int} {move move' : Int × Int}
    (hmove : move ∈ visits axes src ((i + axis.lo) * axis.dstStride))
    (hmove' : move' ∈ visits axes src' ((i' + axis.lo) * axis.dstStride))
    (hcell : move.2 = move'.2) (hspan : 0 ≤ (axes.map fun other => (other.extent - 1) *
      other.dstStride).sum) : i = i' := by
  have hbounds := visits_span haxes hmove
  have hbounds' := visits_span haxes hmove'
  have hpos : 0 < axis.dstStride := by omega
  -- a whole row lies between two different ones
  have hstep : ∀ a b : Int, a < b →
      (a + axis.lo) * axis.dstStride + axis.dstStride ≤ (b + axis.lo) * axis.dstStride := by
    intro a b hab
    have hle := mul_le_mul_of_nonneg_right (show a + axis.lo + 1 ≤ b + axis.lo by omega) hpos.le
    rwa [add_mul (a + axis.lo), one_mul] at hle
  by_contra hne
  rcases lt_or_gt_of_ne hne with hlt | hgt
  · have := hstep i i' hlt
    omega
  · have := hstep i' i hgt
    omega

/-- Consecutive ranges, each with an offset, run over the whole range. -/
theorem Partition.flatMap_intRange {γ : Type} {start finish : Int} {parts : List (Int × Int)}
    (h : Partition start parts finish) (base : Int) (body : Int → List γ) :
    (parts.flatMap fun part => (intRange (base + part.1) (base + part.2)).flatMap body) =
      (intRange (base + start) (base + finish)).flatMap body := by
  induction parts generalizing start with
  | nil =>
      obtain rfl : start = finish := h
      rw [intRange_of_le (le_refl _)]
      rfl
  | cons part rest ih =>
      obtain ⟨rfl, hlt, hrest⟩ := h
      have hle := hrest.le
      rw [List.flatMap_cons, ih hrest, ← List.flatMap_append,
        ← intRange_append (base + part.2) (by omega) (by omega)]

theorem Partition.bounds {start finish : Int} {parts : List (Int × Int)}
    (h : Partition start parts finish) {part : Int × Int} (hmem : part ∈ parts) :
    start ≤ part.1 ∧ part.1 < part.2 ∧ part.2 ≤ finish := by
  induction parts generalizing start with
  | nil => cases hmem
  | cons first rest ih =>
      obtain ⟨rfl, hlt, hrest⟩ := h
      rcases List.mem_cons.mp hmem with rfl | hmem
      · exact ⟨le_refl _, hlt, hrest.le⟩
      · have := ih hrest hmem
        omega

theorem Partition.exists_mem {start finish : Int} {parts : List (Int × Int)}
    (h : Partition start parts finish) {i : Int} (hi : start ≤ i ∧ i < finish) :
    ∃ part ∈ parts, part.1 ≤ i ∧ i < part.2 := by
  induction parts generalizing start with
  | nil =>
      obtain rfl : start = finish := h
      omega
  | cons part rest ih =>
      obtain ⟨rfl, hlt, hrest⟩ := h
      by_cases hin : i < part.2
      · exact ⟨part, by simp, hi.1, hin⟩
      · obtain ⟨other, hother, hrange⟩ := ih hrest ⟨by omega, hi.2⟩
        exact ⟨other, by simp [hother], hrange⟩

theorem Partition.pairwise {start finish : Int} {parts : List (Int × Int)}
    (h : Partition start parts finish) :
    parts.Pairwise fun part other => part.2 ≤ other.1 := by
  induction parts generalizing start with
  | nil => exact List.Pairwise.nil
  | cons part rest ih =>
      obtain ⟨rfl, hlt, hrest⟩ := h
      exact List.Pairwise.cons (fun other hother => (hrest.bounds hother).1) (ih hrest)

/-! ### Strips of disjoint rows -/

theorem intRange_one (k : Int) : intRange k (k + 1) = [k] := by
  simp [intRange]

/-- A loop in which one index alone has a result. -/
theorem flatMap_intRange_only {γ : Type} {first last k : Int} {body : Int → List γ}
    (hk : first ≤ k ∧ k < last) (hothers : ∀ i, first ≤ i ∧ i < last → i ≠ k → body i = []) :
    (intRange first last).flatMap body = body k := by
  have hempty : ∀ a b : Int, first ≤ a → b ≤ last → (k < a ∨ b ≤ k) →
      (intRange a b).flatMap body = [] := by
    intro a b ha hb hside
    rw [List.flatMap_eq_nil_iff]
    intro i hi
    rw [mem_intRange] at hi
    exact hothers i (by omega) (by omega)
  have hrest : intRange k last = [k] ++ intRange (k + 1) last := by
    rw [intRange_append (k + 1) (by omega) (by omega), intRange_one]
  rw [intRange_append k hk.1 hk.2.le, hrest, List.flatMap_append, List.flatMap_append,
    hempty first k (le_refl _) hk.2.le (.inr (le_refl _)),
    hempty (k + 1) last (by omega) (le_refl _) (.inl (by omega))]
  simp

namespace WalkState

variable {outer middle inner : WalkAxis} {first last : Int}

theorem mem_columnStrips {move : Int × Int} :
    move ∈ columnStrips outer middle inner first last ↔
      move ∈ rowStrips outer middle inner first last := by
  simp only [columnStrips, rowStrips, List.mem_flatMap]
  constructor
  · rintro ⟨j, hj, i, hi, hmove⟩
    exact ⟨i, hi, j, hj, hmove⟩
  · rintro ⟨i, hi, j, hj, hmove⟩
    exact ⟨j, hj, i, hi, hmove⟩

/-- Where a cell has strips of one row only, both orders visit it alike. -/
theorem filter_columnStrips {cell : Int}
    (hapart : ∀ i i' j j' : Int, ∀ move ∈ stripVisits outer middle inner i j,
      ∀ move' ∈ stripVisits outer middle inner i' j', (0 ≤ j ∧ j < middle.extent) →
        (0 ≤ j' ∧ j' < middle.extent) → move.2 = move'.2 → i = i') :
    (columnStrips outer middle inner first last).filter (fun move => move.2 = cell) =
      (rowStrips outer middle inner first last).filter fun move => move.2 = cell := by
  simp only [columnStrips, rowStrips, List.filter_flatMap]
  by_cases hany : ∃ i j : Int, (first ≤ i ∧ i < last) ∧ (0 ≤ j ∧ j < middle.extent) ∧
      ∃ move ∈ stripVisits outer middle inner i j, move.2 = cell
  · obtain ⟨i, j, hi, hj, move, hmove, hcell⟩ := hany
    have hothers : ∀ i' j' : Int, i' ≠ i → (0 ≤ j' ∧ j' < middle.extent) →
        (stripVisits outer middle inner i' j').filter (fun move => move.2 = cell) = [] := by
      intro i' j' hne hj'
      rw [List.filter_eq_nil_iff]
      intro move' hmove' hcell'
      rw [decide_eq_true_eq] at hcell'
      exact hne (hapart i' i j' j move' hmove' move hmove hj' hj (hcell'.trans hcell.symm))
    rw [flatMap_intRange_only hi fun i' _ hne => ?_]
    · refine List.flatMap_congr fun j' hj' => ?_
      rw [mem_intRange] at hj'
      exact flatMap_intRange_only hi fun i' _ hne => hothers i' j' hne hj'
    · rw [List.flatMap_eq_nil_iff]
      intro j' hj'
      rw [mem_intRange] at hj'
      exact hothers i' j' hne hj'
  · have hnone : ∀ i j : Int, (first ≤ i ∧ i < last) → (0 ≤ j ∧ j < middle.extent) →
        (stripVisits outer middle inner i j).filter (fun move => move.2 = cell) = [] := by
      intro i j hi hj
      rw [List.filter_eq_nil_iff]
      intro move hmove hcell
      rw [decide_eq_true_eq] at hcell
      exact hany ⟨i, j, hi, hj, move, hmove, hcell⟩
    have hleft : ((intRange 0 middle.extent).flatMap fun j => (intRange first last).flatMap fun i =>
        (stripVisits outer middle inner i j).filter fun move => move.2 = cell) = [] := by
      simp only [List.flatMap_eq_nil_iff, mem_intRange]
      exact fun j hj i hi => hnone i j hi hj
    have hright : ((intRange first last).flatMap fun i =>
        (intRange 0 middle.extent).flatMap fun j =>
        (stripVisits outer middle inner i j).filter fun move => move.2 = cell) = [] := by
      simp only [List.flatMap_eq_nil_iff, mem_intRange]
      exact fun i hi j hj => hnone i j hi hj
    rw [hleft, hright]

end WalkState

/-! ### Units of work -/

namespace HostCall

variable {program : Program} {plan : TypedRelocationPlan} {fromStage toStage : Nat}
  {chunk : Option Chunk} {source : Memory Nat} {call : HostCall}

/-- The row that a unit of work starts at. -/
def row (call : HostCall) (unit : Int) : Int :=
  if call.kernel = .tiledTranspose then
    min call.window.last (call.window.first + unit * kTypedTile)
  else call.window.first + unit

theorem row_zero (h : call.window.first ≤ call.window.last) : call.row 0 = call.window.first := by
  unfold row
  split
  · omega
  · omega

theorem row_units (call : HostCall) : call.row call.units = call.window.last := by
  unfold row units kTypedTile
  split
  · omega
  · omega

theorem row_mono (call : HostCall) {a b : Int} (h : a ≤ b) : call.row a ≤ call.row b := by
  unfold row kTypedTile
  split
  · omega
  · omega

namespace Checked

/-- The axes of a call that runs strips, which has no pads. -/
theorem strided (hsound : program.Sound plan)
    (h : call.Checked program fromStage toStage chunk source)
    (hkernel : call.kernel = .stridedRuns) :
    ∃ outer middle inner, call.layout.walkAxes = [outer, middle, inner] ∧
      (outer.lo = 0 ∧ middle.lo = 0 ∧ inner.lo = 0) ∧
      (inner.srcStride = 1 ∧ inner.dstStride = 1) := by
  have hstrided := Program.hostKernel_strided (h.kernel.symm.trans hkernel)
  rw [h.layout_eq]
  have hbare := hsound.regioned.bare
  generalize program.plan.layout.padRegions = regions at hstrided hbare
  generalize program.plan.layout.walkAxes = axes at hstrided hbare
  match axes, hstrided with
  | [outer, middle, inner], ⟨hregions, hsrc, hdst, _⟩ =>
      subst hregions
      exact ⟨outer, middle, inner, rfl, ⟨(hbare 0 outer rfl (by simp)).1,
        (hbare 1 middle rfl (by simp)).1, (hbare 2 inner rfl (by simp)).1⟩, hsrc, hdst⟩

/-- The axes of a call that runs a transpose. -/
theorem tiled (h : call.Checked program fromStage toStage chunk source)
    (hkernel : call.kernel = .tiledTranspose) :
    ∃ outer inner, call.layout.walkAxes = [outer, inner] ∧ outer.srcStride = 1 ∧
      inner.dstStride = 1 ∧ inner.extent ≤ outer.dstStride := by
  have htiled := Program.hostKernel_tiled (h.kernel.symm.trans hkernel)
  rw [h.layout_eq]
  generalize program.plan.layout.walkAxes = axes at htiled
  match axes, htiled with
  | [outer, inner], ⟨hsrc, _, hdst, hextent⟩ => exact ⟨outer, inner, rfl, hsrc, hdst, hextent⟩

/-- The units of a call hold the elements of their rows. -/
theorem mem_order (hsound : program.Sound plan)
    (h : call.Checked program fromStage toStage chunk source) {part : Int × Int}
    (hpart : part.1 < part.2 ∧ part.2 ≤ call.units) {move : Int × Int} :
    move ∈ call.order part.1 part.2 ↔
      move ∈ rangedVisits call.layout.walkAxes (call.row part.1) (call.row part.2) 0 0 := by
  cases hkernel : call.kernel with
  | stridedRuns =>
      obtain ⟨outer, middle, inner, haxes, hlo, hunit⟩ := h.strided hsound hkernel
      unfold order row
      rw [hkernel, haxes]
      simp only [reduceCtorEq, if_false]
      rw [WalkState.rangedVisits_strips hlo hunit]
      split
      · rfl
      · exact WalkState.mem_columnStrips
  | tiledTranspose =>
      obtain ⟨outer, inner, haxes, hsrc, hdst, -⟩ := h.tiled hkernel
      have hunits : call.window.first + part.1 * kTypedTile ≤ call.window.last := by
        unfold units at hpart
        rw [if_pos hkernel] at hpart
        unfold kTypedTile at hpart ⊢
        omega
      unfold order row
      rw [hkernel, haxes]
      simp only [if_true]
      rw [WalkState.mem_tileVisits hsrc hdst, min_eq_right hunits]
  | generic =>
      unfold order row
      rw [hkernel]
      simp
  | contiguousCast =>
      unfold order row
      rw [hkernel]
      simp
  | contiguousStages =>
      unfold order row
      rw [hkernel]
      simp

/-- The rows of a call are rows of its layout. -/
theorem window_bounds (hsound : program.Sound plan)
    (h : call.Checked program fromStage toStage chunk source) {axis : WalkAxis}
    {axes : List WalkAxis} (haxes : call.layout.walkAxes = axis :: axes) :
    (0 ≤ call.window.first ∧ call.window.first ≤ call.window.last ∧
      call.window.last ≤ axis.extent) ∧ 0 ≤ call.window.origin ∧
      call.window.origin + call.window.elements ≤ program.resultElements := by
  rw [h.layout_eq] at haxes
  exact (resolveWindow_eq_ok hsound h.range.2 h.settled haxes (h.widths hsound).2
    h.window).bounds hsound haxes

theorem exists_axis (hsound : program.Sound plan)
    (h : call.Checked program fromStage toStage chunk source) :
    ∃ axis axes, call.layout.walkAxes = axis :: axes := by
  rw [h.layout_eq]
  exact hsound.walkAxes_eq

theorem first_le_last (hsound : program.Sound plan)
    (h : call.Checked program fromStage toStage chunk source) :
    0 ≤ call.window.first ∧ call.window.first ≤ call.window.last := by
  obtain ⟨axis, axes, haxes⟩ := h.exists_axis hsound
  have := (h.window_bounds hsound haxes).1
  omega

end Checked

/-! ### Divided work -/

/-- The workers have all units, and more than one only where rows are disjoint. -/
theorem Divided.partition {parts : List (Int × Int)} (h : call.Divided parts)
    (hle : call.window.first ≤ call.window.last) :
    Partition 0 parts call.units ∧ (parts.length ≤ 1 ∨ call.rowsDisjoint) := by
  rcases h with rfl | ⟨hdisjoint, -, hparts⟩
  · split
    · refine ⟨partition_single ?_, .inl (le_refl 1)⟩
      unfold units kTypedTile
      split <;> omega
    · refine ⟨?_, .inl (Nat.zero_le 1)⟩
      change (0 : Int) = call.units
      unfold units kTypedTile
      split <;> omega
  · exact ⟨hparts, .inr hdisjoint⟩

namespace Checked

theorem mem_units (hsound : program.Sound plan)
    (h : call.Checked program fromStage toStage chunk source) {parts : List (Int × Int)}
    (hparts : Partition 0 parts call.units) {move : Int × Int} :
    (∃ part ∈ parts, move ∈ call.order part.1 part.2) ↔ move ∈ call.moves := by
  have hle := (h.first_le_last hsound).2
  obtain ⟨axis, axes, haxes⟩ := h.exists_axis hsound
  have hmem : ∀ part ∈ parts, (move ∈ call.order part.1 part.2 ↔
      move ∈ rangedVisits call.layout.walkAxes (call.row part.1) (call.row part.2) 0 0) :=
    fun part hpart => h.mem_order hsound (hparts.bounds hpart).2
  unfold moves
  simp only [haxes, mem_rangedVisits] at hmem ⊢
  constructor
  · rintro ⟨part, hpart, hmove⟩
    obtain ⟨i, hi, hvisit⟩ := (hmem part hpart).mp hmove
    have hbounds := hparts.bounds hpart
    have hlow := row_mono call hbounds.1
    have hhigh := row_mono call hbounds.2.2
    rw [row_zero hle] at hlow
    rw [row_units] at hhigh
    exact ⟨i, by omega, hvisit⟩
  · rintro ⟨i, hi, hvisit⟩
    -- the unit that the row is in
    obtain ⟨unit, hunit, hrow⟩ : ∃ unit, (0 ≤ unit ∧ unit < call.units) ∧
        call.row unit ≤ i ∧ i < call.row (unit + 1) := by
      by_cases htiled : call.kernel = .tiledTranspose
      · refine ⟨(i - call.window.first) / 32, ?_, ?_⟩
        · simp only [units, if_pos htiled, kTypedTile]
          omega
        · simp only [row, if_pos htiled, kTypedTile]
          omega
      · refine ⟨i - call.window.first, ?_, ?_⟩
        · simp only [units, if_neg htiled]
          omega
        · simp only [row, if_neg htiled]
          omega
    obtain ⟨part, hpart, hin⟩ := hparts.exists_mem hunit
    have hlow := row_mono call hin.1
    have hhigh := row_mono call (show unit + 1 ≤ part.2 by omega)
    exact ⟨part, hpart, (hmem part hpart).mpr ⟨i, by omega, hvisit⟩⟩

/-- Workers on disjoint rows write apart. -/
theorem apart (hsound : program.Sound plan)
    (h : call.Checked program fromStage toStage chunk source) {parts : List (Int × Int)}
    (hparts : Partition 0 parts call.units) (hdisjoint : call.rowsDisjoint)
    {place : Int × Int → CellWrite} (hplace : ∀ move, (place move).cell =
      move.2 - call.state.origin) :
    Apart (parts.map fun part => (call.order part.1 part.2).map place) := by
  obtain ⟨axis, axes, haxes⟩ := h.exists_axis hsound
  have hall := hsound.laid.axes
  unfold rowsDisjoint at hdisjoint
  rw [← h.layout_eq, haxes] at hall
  rw [haxes] at hdisjoint
  rw [List.forall_mem_cons] at hall
  have hspan : 0 ≤ (axes.map fun other => (other.extent - 1) * other.dstStride).sum := by
    refine List.sum_nonneg fun value hvalue => ?_
    obtain ⟨other, hother, rfl⟩ := List.mem_map.mp hvalue
    have := hall.2 other hother
    exact mul_nonneg (by omega) this.2.2
  rw [Apart, List.pairwise_map]
  refine hparts.pairwise.imp_of_mem fun {part other} hpart hother hle x hx y hy hcell => ?_
  obtain ⟨move, hmove, rfl⟩ := List.mem_map.mp hx
  obtain ⟨move', hmove', rfl⟩ := List.mem_map.mp hy
  rw [h.mem_order hsound (hparts.bounds hpart).2, haxes, mem_rangedVisits] at hmove
  rw [h.mem_order hsound (hparts.bounds hother).2, haxes, mem_rangedVisits] at hmove'
  obtain ⟨i, hi, hvisit⟩ := hmove
  obtain ⟨i', hi', hvisit'⟩ := hmove'
  rw [hplace, hplace] at hcell
  rw [zero_add, zero_add] at hvisit hvisit'
  have hrow := row_eq_of_cell_eq (fun o ho => (hall.2 o ho).2.2) hdisjoint hvisit hvisit'
    (by omega) hspan
  have := row_mono call hle
  omega

end Checked

end HostCall

end SymReloc
