import Mathlib.Data.List.Infix
import SymReloc.Runtime.TransferChecks

/-!
# The two tests of strides

`viewSpanBytes` and `srcRowsWriteDisjoint` both sort the axes of extent above one by stride
and ask that every stride passes what the smaller ones reach.  The first computes this
reach with checks; the second adds it up in plain 64-bit arithmetic, so its answer is one
about the strides only as long as the reach fits.
-/

namespace SymReloc

open Outcome

/-! ### The test of the source rows -/

section Code

variable {ε : Type}

/-- The axes that count, or none where one of them does not go forward. -/
def srcAxes : List Strides.Axis → Option (List Strides.Axis)
  | [] => some []
  | axis :: rest =>
      if axis.extent ≤ 1 then srcAxes rest
      else if axis.stride ≤ 0 then none
      else (srcAxes rest).map (axis :: ·)

/-- Each stride must pass the span of what came before; `arith` is what a signed operation
    makes of its exact result. -/
def passesSpan (arith : Int → Outcome ε Int) : List Strides.Axis → Int → Outcome ε Bool
  | [], _ => .ok true
  | axis :: rest, span =>
      if axis.stride ≤ span then .ok false
      else do
        let last ← arith (axis.extent - 1)
        let reach ← arith (last * axis.stride)
        let span ← arith (span + reach)
        passesSpan arith rest span

def BoundPlan.srcAxes (bound : BoundPlan) : List Strides.Axis :=
  (bound.extents.zip bound.srcStrides).map entryAxis

def srcRowsWriteDisjoint (arith : Int → Outcome ε Int) (bound : BoundPlan) : Outcome ε Bool :=
  match SymReloc.srcAxes bound.srcAxes with
  | none => .ok false
  | some axes => passesSpan arith (axes.insertionSort axisLE) 0

end Code

/-! ### What it answers -/

theorem srcAxes_eq_some {axes counted : List Strides.Axis} :
    srcAxes axes = some counted ↔ (∀ axis ∈ axes, 1 < axis.extent → 0 < axis.stride) ∧
      counted = axes.filter fun axis => 1 < axis.extent := by
  induction axes generalizing counted with
  | nil => simp [srcAxes, eq_comm]
  | cons axis rest ih =>
      rw [srcAxes, List.forall_mem_cons, List.filter_cons]
      by_cases hextent : axis.extent ≤ 1
      · have hnot : ¬ 1 < axis.extent := not_lt.mpr hextent
        rw [if_pos hextent, if_neg (by simpa using hextent), ih]
        simp [hnot]
      · have hcounts : 1 < axis.extent := not_le.mp hextent
        rw [if_neg hextent, if_pos (show decide (1 < axis.extent) = true by simpa using hcounts)]
        by_cases hstride : axis.stride ≤ 0
        · simp [hstride, hcounts, not_lt.mpr hstride]
        · rw [if_neg hstride, Option.map_eq_some_iff]
          constructor
          · intro h
            obtain ⟨others, hothers, rfl⟩ := h
            obtain ⟨hall, rfl⟩ := ih.mp hothers
            exact ⟨⟨fun _ => not_le.mp hstride, hall⟩, rfl⟩
          · intro h
            exact ⟨_, ih.mpr ⟨h.1.2, rfl⟩, h.2.symm⟩

/-- The loop has an answer exactly when what it adds up fits, as far as it gets; it is that of
    the exact numbers. -/
theorem sat_passesSpan_iff {ε : Type} {axes : List Strides.Axis}
    (haxes : ∀ axis ∈ axes, (1 < axis.extent ∧ FitsI64 axis.extent) ∧ 0 < axis.stride)
    {span : Int} (hspan : 0 ≤ span) (hfits : FitsI64 span) {post : Bool → Prop}
    (hfalse : post false) (htrue : Strides.Nested span axes → post true) :
    (passesSpan exact64 axes span : Outcome ε Bool).Sat post ↔
      ∀ inner, inner <+: axes → Strides.Nested span inner →
        FitsI64 (span + Strides.reach inner) := by
  induction axes generalizing span with
  | nil =>
      refine iff_of_true (htrue trivial) fun inner hinner _ => ?_
      rw [List.prefix_nil.mp hinner, Strides.reach, add_zero]
      exact hfits
  | cons axis rest ih =>
      obtain ⟨⟨hextent, hextentFits⟩, hstride⟩ := haxes axis List.mem_cons_self
      have hproduct : 0 ≤ (axis.extent - 1) * axis.stride := mul_nonneg (by omega) hstride.le
      rw [passesSpan]
      by_cases hle : axis.stride ≤ span
      · rw [if_pos hle]
        refine iff_of_true hfalse fun inner hinner hnested => ?_
        rcases List.prefix_cons_iff.mp hinner with rfl | ⟨others, rfl, _⟩
        · rw [Strides.reach, add_zero]
          exact hfits
        · rcases hnested.1 with hone | hgap
          · omega
          · omega
      · have hgap : span < axis.stride := not_le.mp hle
        have hlast : FitsI64 (axis.extent - 1) := by
          unfold FitsI64 at hextentFits ⊢
          omega
        rw [if_neg hle, exact64_of_fits hlast, ok_bind]
        by_cases hsum : FitsI64 (span + (axis.extent - 1) * axis.stride)
        · have hreach : FitsI64 ((axis.extent - 1) * axis.stride) := by
            unfold FitsI64 at hsum ⊢
            omega
          rw [exact64_of_fits hreach, ok_bind, exact64_of_fits hsum, ok_bind,
            ih (fun other hother => haxes other (List.mem_cons_of_mem _ hother)) (by omega) hsum
              (fun hnested => htrue ⟨.inr hgap, hnested⟩)]
          constructor
          · intro hall inner hinner hnested
            rcases List.prefix_cons_iff.mp hinner with rfl | ⟨others, rfl, hothers⟩
            · rw [Strides.reach, add_zero]
              exact hfits
            · rw [Strides.reach, ← add_assoc]
              exact hall others hothers hnested.2
          · intro hall inner hinner hnested
            have hcons :=
              hall (axis :: inner) (List.prefix_cons_iff.mpr (.inr ⟨inner, rfl, hinner⟩))
              ⟨.inr hgap, hnested⟩
            rwa [Strides.reach, ← add_assoc] at hcons
        · refine iff_of_false ?_ fun hall => hsum ?_
          · -- The product overflows, or the sum does.
            rw [exact64]
            split
            · rw [ok_bind, exact64, if_neg hsum, fault_bind]
              exact not_sat_fault _ _
            · rw [fault_bind]
              exact not_sat_fault _ _
          · have honly := hall [axis] (List.prefix_cons_iff.mpr (.inr ⟨[], rfl, List.nil_prefix⟩))
              ⟨.inr hgap, trivial⟩
            rwa [Strides.reach, Strides.reach, add_zero] at honly

/-- What the smallest strides of the source reach, as long as they nest, fits 64 bits. -/
def BoundPlan.SourceReachFits (bound : BoundPlan) : Prop :=
  (∀ axis ∈ bound.srcAxes, 1 < axis.extent → 0 < axis.stride) →
    ∀ inner ∈ ((bound.srcAxes.filter fun axis => 1 < axis.extent).insertionSort axisLE).inits,
      Strides.Nested 0 inner → FitsI64 (Strides.reach inner)

instance (bound : BoundPlan) : Decidable bound.SourceReachFits := by
  unfold BoundPlan.SourceReachFits
  infer_instance

/-- Axes that nest address injectively; with an extent below one there is nothing to address. -/
theorem injOn_of_nested {axes : List Strides.Axis} (hstrides : ∀ axis ∈ axes, 0 ≤ axis.stride)
    (hnested : Strides.Nested 0 ((axes.filter fun axis => 1 < axis.extent).insertionSort axisLE)) :
    Set.InjOn (Strides.offset axes) {index | Strides.InBox axes index} := by
  by_cases hextents : ∀ axis ∈ axes, 1 ≤ axis.extent
  · have hforward : Strides.Forward axes := fun axis hmem =>
      ⟨hextents axis hmem, hstrides axis hmem⟩
    have hcounted : (axes.filter fun axis => 1 < axis.extent) =
        axes.filter fun axis => axis.extent ≠ 1 := by
      refine List.filter_congr fun axis hmem => ?_
      have hpos := hextents axis hmem
      rw [decide_eq_decide]
      omega
    rw [hcounted] at hnested
    have hones : ∀ axis ∈ axes.filter (fun axis => ¬ axis.extent ≠ 1), axis.extent = 1 := by
      intro axis hmem
      simpa using (List.mem_filter.mp hmem).2
    exact Strides.injOn_offset (perm_sorted axes) (nested_ones hones hnested) hforward
  · intro index hindex
    exfalso
    refine hextents fun axis hmem => ?_
    obtain ⟨i, hlt, rfl⟩ := List.mem_iff_getElem.mp hmem
    have hbox := List.forall₂_iff_get.mp hindex
    have hin := hbox.2 i hlt (hbox.1 ▸ hlt)
    simp only [List.get_eq_getElem] at hin
    omega

theorem sat_srcRowsWriteDisjoint_iff {ε : Type} {bound : BoundPlan}
    (hextents : ∀ extent ∈ bound.extents, FitsI64 extent) {post : Bool → Prop}
    (hfalse : post false)
    (htrue : Strides.Nested 0
      ((bound.srcAxes.filter fun axis => 1 < axis.extent).insertionSort axisLE) → post true) :
    (srcRowsWriteDisjoint exact64 bound : Outcome ε Bool).Sat post ↔ bound.SourceReachFits := by
  unfold srcRowsWriteDisjoint BoundPlan.SourceReachFits
  cases hcounted : srcAxes bound.srcAxes with
  | none =>
      refine iff_of_true hfalse fun hall => ?_
      rw [srcAxes_eq_some.mpr ⟨hall, rfl⟩] at hcounted
      cases hcounted
  | some counted =>
      obtain ⟨hall, rfl⟩ := srcAxes_eq_some.mp hcounted
      dsimp only
      rw [sat_passesSpan_iff ?_ le_rfl (by decide) hfalse htrue]
      · simp only [zero_add, List.mem_inits]
        exact ⟨fun h _ => h, fun h => h hall⟩
      · intro axis hmem
        rw [List.mem_insertionSort, List.mem_filter, decide_eq_true_eq] at hmem
        obtain ⟨entry, hentry, rfl⟩ := List.mem_map.mp hmem.1
        exact ⟨⟨hmem.2, hextents _ (List.of_mem_zip hentry).1⟩, hall _ hmem.1 hmem.2⟩

/-! ### Main results -/

/-- What the two tests are for: neither goes wrong, and when it accepts the offsets of its axes
    are distinct; the span that the first reports ends after the largest one. -/
structure StridesTested (view : BufferView) (what : String) (bound : BoundPlan) : Prop where
  destination : (viewSpanBytes view what).Sat fun bytes =>
    Set.InjOn (Strides.offset view.axes) {index | Strides.InBox view.axes index} ∧
      ∃ largest, IsGreatest
        (Set.image (Strides.offset view.axes) {index | Strides.InBox view.axes index}) largest ∧
        (bytes : Int) = (largest + 1) * view.elementSize
  source : (srcRowsWriteDisjoint exact64 bound : Outcome TransferError Bool).Sat fun accepts =>
    accepts = true →
      Set.InjOn (Strides.offset bound.srcAxes) {index | Strides.InBox bound.srcAxes index}

/-- The test of a view keeps its promise for all of them, that of the source rows exactly for
    strides whose reach fits. -/
theorem stridesTested_iff {view : BufferView} (hview : ∀ extent ∈ view.extents, FitsI64 extent)
    (what : String) {bound : BoundPlan} (hextents : ∀ extent ∈ bound.extents, FitsI64 extent)
    (hstrides : ∀ stride ∈ bound.srcStrides, 0 ≤ stride) :
    StridesTested view what bound ↔ bound.SourceReachFits := by
  have hsource : (srcRowsWriteDisjoint exact64 bound : Outcome TransferError Bool).Sat
      (fun accepts =>
      accepts = true → Set.InjOn (Strides.offset bound.srcAxes)
        {index | Strides.InBox bound.srcAxes index}) ↔ bound.SourceReachFits := by
    refine sat_srcRowsWriteDisjoint_iff hextents nofun fun hnested _ => ?_
    refine injOn_of_nested (fun axis hmem => ?_) hnested
    obtain ⟨entry, hentry, rfl⟩ := List.mem_map.mp hmem
    exact hstrides _ (List.of_mem_zip hentry).2
  rw [← hsource]
  refine ⟨StridesTested.source, fun h => ⟨?_, h⟩⟩
  refine (sat_viewSpanBytes hview what).mono fun bytes hspans => ?_
  obtain ⟨order, hperm, hnested⟩ := hspans.nested
  exact ⟨Strides.injOn_offset hperm hnested hspans.forward, _,
    Strides.isGreatest_reach hspans.forward, hspans.bytes_eq⟩

/-- A matrix of four rows and three columns, with its elements at these strides. -/
def spread (srcStrides : List Int) : BoundPlan where
  extents := [4, 3]
  srcStrides := srcStrides
  dstStrides := [3, 1]
  perm := [0, 1]
  padRegions := []
  elementSize := 1
  totalBytes := 12
  noCopy := false
  typed := false
  strategy := .multiThreadTiled
  L := 1
  requiredAlignments := []

def denseView : BufferView where
  base := 4096
  capacityBytes := 12
  offsetBytes := 0
  extents := [4, 3]
  strides := [3, 1]
  elementSize := 1
  kind := .host
  device := -1

theorem stridesTested_dense : StridesTested denseView "source" (spread [3, 1]) :=
  (stridesTested_iff (by decide) "source" (by decide) (by decide)).mpr (by decide)

/-- Strides that reach beyond 64 bits: the sum overflows; where it wraps the test accepts, and
    the first column of the last row is the last column of the first row. -/
theorem srcRowsWriteDisjoint_overflows :
    ¬ StridesTested denseView "source" (spread [2 ^ 62, 3 * 2 ^ 61]) ∧
      (srcRowsWriteDisjoint (fun value => .ok (wrap64 value)) (spread [2 ^ 62, 3 * 2 ^ 61]) :
        Outcome TransferError Bool) = .ok true ∧
      ¬ Set.InjOn (Strides.offset (spread [2 ^ 62, 3 * 2 ^ 61]).srcAxes)
        {index | Strides.InBox (spread [2 ^ 62, 3 * 2 ^ 61]).srcAxes index} := by
  refine ⟨fun h => ?_, by decide, fun h => ?_⟩
  · have hsource := h.source
    have hfault : (srcRowsWriteDisjoint exact64 (spread [2 ^ 62, 3 * 2 ^ 61]) :
        Outcome TransferError Bool) = .fault .signedOverflow := by decide
    rw [hfault] at hsource
    exact hsource
  · have hfirst : Strides.InBox (spread [2 ^ 62, 3 * 2 ^ 61]).srcAxes [3, 0] :=
      .cons (by decide) (.cons (by decide) .nil)
    have hlast : Strides.InBox (spread [2 ^ 62, 3 * 2 ^ 61]).srcAxes [0, 2] :=
      .cons (by decide) (.cons (by decide) .nil)
    exact absurd (h hfirst hlast (by decide)) (by decide)

end SymReloc
