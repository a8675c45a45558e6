import SymReloc.Runtime.Coalesce

/-!
# What a bound plan walks

`concreteAxes` is the first part of `bind`: the axes of the plan under the symbol
values, with their pads.  The bound plan visits their offsets in their order, keeps
every pad, renames every alignment to the axis that took its place, and leaves no two
neighbours to merge.
-/

namespace SymReloc

open Outcome

/-- The axes of the plan before merging. -/
def concreteAxes (plan : RelocationPlan) (map : SymbolMap) :
    Outcome BindError (List ConcreteAxis) := do
  let symbols ← resolveSymbols plan.symbols map
  forEach plan.divisibility (checkDivisibility symbols)
  require (plan.axes ≠ []) .noAxes
  let axes ← mapEach plan.axes (bindAxis symbols)
  attachPads plan symbols plan.padFill axes

theorem bind_eq (plan : RelocationPlan) (map : SymbolMap) (override : Strategy) :
    bind plan map override = concreteAxes plan map >>= assembleBound plan override := by
  simp only [bind, concreteAxes, bind_assoc]

/-! ### The concrete axes -/

/-- The pad that counts for an axis: the last one that names it. -/
def padOf (axis : Nat) : Option PadFill → List PadFill → Option PadFill
  | found, [] => found
  | found, pad :: rest => padOf axis (if pad.dstAxis = axis then some pad else found) rest

/-- The axis carries the pad, or none. -/
def ConcreteAxis.Carries (symbols : List Int) (axis : ConcreteAxis) : Option PadFill → Prop
  | none => axis.padded = false ∧ axis.lo = 0 ∧ axis.hi = 0
  | some pad => axis.padded = true ∧ axis.fillBits = pad.fillBits ∧
      evalField pad.lo symbols "pad lo" = .ok axis.lo ∧
      evalField pad.hi symbols "pad hi" = .ok axis.hi

/-- The axis has the extent and the strides that the plan states. -/
structure ConcreteAxis.Evaluates (symbols : List Int) (source : Axis) (axis : ConcreteAxis) :
    Prop where
  extent : evalField source.extent symbols "axis extent" = .ok axis.extent
  src : evalField source.srcStride symbols "axis src_stride" = .ok axis.srcStride
  dst : evalField source.dstStride symbols "axis dst_stride" = .ok axis.dstStride

theorem bindAxis_eq_ok {symbols : List Int} {source : Axis} {axis : ConcreteAxis}
    (h : bindAxis symbols source = .ok axis) :
    axis.Evaluates symbols source ∧ axis.Sound ∧ axis.Carries symbols none := by
  simp only [bindAxis, bind_ok_iff, exists_unit, require_eq_ok, pure_eq, Outcome.ok.injEq] at h
  obtain ⟨extent, hextent, src, hsrc, dst, hdst, hpos, hstrides, rfl⟩ := h
  exact ⟨⟨hextent, hsrc, hdst⟩, ⟨hpos, hstrides.1, hstrides.2, ⟨le_refl 0, le_refl 0⟩,
    fun _ => ⟨rfl, rfl⟩⟩, rfl, rfl, rfl⟩

/-- What one pad does to the axes. -/
theorem attachPad_eq_ok {plan : RelocationPlan} {symbols : List Int}
    {axes axes' : List ConcreteAxis}
    {pad : PadFill} (h : attachPad plan symbols axes pad = .ok axes') :
    ∃ axis lo hi, axes[pad.dstAxis]? = some axis ∧ (0 ≤ lo ∧ 0 ≤ hi) ∧
      evalField pad.lo symbols "pad lo" = .ok lo ∧ evalField pad.hi symbols "pad hi" = .ok hi ∧
      checkPadRange plan symbols pad axis.extent lo hi = .ok () ∧
      axes' = axes.set pad.dstAxis
        { axis with padded := true, lo, hi, fillBits := pad.fillBits } := by
  simp only [attachPad, bind_ok_iff, exists_unit, require_eq_ok, fetch_eq_ok, pure_eq,
    Outcome.ok.injEq] at h
  obtain ⟨lo, hlo, hi, hhi, -, axis, haxis, hpos, hrange, rfl⟩ := h
  exact ⟨axis, lo, hi, haxis, hpos, hlo, hhi, hrange, rfl⟩

/-- The axes with the pads found so far, against the axes of the plan. -/
structure Attached (plan : RelocationPlan) (symbols : List Int) (found : Nat → Option PadFill)
    (axes : List ConcreteAxis) : Prop where
  length : axes.length = plan.axes.length
  each : ∀ (k : Nat) (axis : ConcreteAxis), axes[k]? = some axis →
    axis.Sound ∧ axis.Carries symbols (found k) ∧
    ∃ source, plan.axes[k]? = some source ∧ axis.Evaluates symbols source

theorem Attached.pad {plan : RelocationPlan} {symbols : List Int} {found : Nat → Option PadFill}
    {axes axes' : List ConcreteAxis} {pad : PadFill} (h : Attached plan symbols found axes)
    (hrun : attachPad plan symbols axes pad = .ok axes') :
    Attached plan symbols (fun k => if pad.dstAxis = k then some pad else found k) axes' := by
  obtain ⟨axis, lo, hi, haxis, hpos, hlo, hhi, -, rfl⟩ := attachPad_eq_ok hrun
  refine ⟨by rw [List.length_set, h.length], fun k axis' haxis' => ?_⟩
  rw [List.getElem?_set] at haxis'
  by_cases hk : pad.dstAxis = k
  · subst hk
    obtain ⟨hlt, -⟩ := List.getElem?_eq_some_iff.mp haxis
    rw [if_pos rfl, if_pos hlt, Option.some.injEq] at haxis'
    subst haxis'
    obtain ⟨hsound, -, source, hsource, hevaluates⟩ := h.each _ axis haxis
    refine ⟨⟨hsound.extent, hsound.src, hsound.dst, hpos, ?_⟩, ?_, source, hsource, ?_⟩
    · intro hfalse
      cases hfalse
    · rw [if_pos rfl]
      exact ⟨rfl, rfl, hlo, hhi⟩
    · exact ⟨hevaluates.extent, hevaluates.src, hevaluates.dst⟩
  · rw [if_neg hk] at haxis'
    rw [if_neg hk]
    exact h.each k axis' haxis'

theorem Attached.pads {plan : RelocationPlan} {symbols : List Int} {found : Nat → Option PadFill}
    {axes axes' : List ConcreteAxis} {pads : List PadFill} (h : Attached plan symbols found axes)
    (hrun : attachPads plan symbols pads axes = .ok axes') :
    Attached plan symbols (fun k => padOf k (found k) pads) axes' := by
  induction pads generalizing found axes with
  | nil =>
      cases hrun
      exact h
  | cons pad rest ih =>
      rw [attachPads, bind_ok_iff] at hrun
      obtain ⟨middle, hpad, hrest⟩ := hrun
      exact ih (h.pad hpad) hrest

/-- The concrete axes are those of the plan, each with the last pad that names it. -/
theorem concreteAxes_attached {plan : RelocationPlan} {map : SymbolMap} {axes : List ConcreteAxis}
    (h : concreteAxes plan map = .ok axes) :
    ∃ symbols, resolveSymbols plan.symbols map = .ok symbols ∧ axes ≠ [] ∧
      Attached plan symbols (fun k => padOf k none plan.padFill) axes := by
  simp only [concreteAxes, bind_ok_iff, exists_unit, require_eq_ok] at h
  obtain ⟨symbols, hsymbols, -, hne, bare, hbare, hpads⟩ := h
  have hattached : Attached plan symbols (fun _ => none) bare := by
    have hforall := mapEach_eq_ok.mp hbare
    refine ⟨hforall.length_eq.symm, fun k axis haxis => ?_⟩
    obtain ⟨hlt, rfl⟩ := List.getElem?_eq_some_iff.mp haxis
    have hlt' : k < plan.axes.length := hforall.length_eq ▸ hlt
    obtain ⟨hevaluates, hsound, hcarries⟩ := bindAxis_eq_ok (hforall.get hlt' hlt)
    exact ⟨hsound, hcarries, plan.axes[k], List.getElem?_eq_getElem hlt', hevaluates⟩
  have hfinal := hattached.pads hpads
  refine ⟨symbols, hsymbols, ?_, hfinal⟩
  intro hnil
  have hlength := hfinal.length
  rw [hnil, List.length_nil] at hlength
  exact hne (List.length_eq_zero_iff.mp hlength.symm)

theorem concreteAxes_sound {plan : RelocationPlan} {map : SymbolMap} {axes : List ConcreteAxis}
    (h : concreteAxes plan map = .ok axes) : ∀ axis ∈ axes, axis.Sound := by
  obtain ⟨symbols, -, -, hattached⟩ := concreteAxes_attached h
  intro axis hmem
  obtain ⟨k, hk⟩ := List.mem_iff_getElem?.mp hmem
  exact (hattached.each k axis hk).1

/-! ### The pads of the bound plan -/

def ConcreteAxis.bare (axis : ConcreteAxis) : WalkAxis :=
  { axis.walk with lo := 0, hi := 0 }

def ConcreteAxis.region (axis : ConcreteAxis) (index : Nat) : PadRegion where
  axis := index
  lo := axis.lo
  hi := axis.hi
  fillBits := axis.fillBits

theorem mem_padRegions {axes : List ConcreteAxis} {region : PadRegion} :
    region ∈ padRegions axes ↔ ∃ axis, axes[region.axis]? = some axis ∧ axis.padded = true ∧
      region = axis.region region.axis := by
  simp only [padRegions, List.mem_map, List.mem_filter, List.mem_zipIdx_iff_getElem?]
  constructor
  · rintro ⟨⟨axis, k⟩, ⟨hk, hpadded⟩, rfl⟩
    exact ⟨axis, hk, hpadded, rfl⟩
  · rintro ⟨axis, hk, hpadded, hregion⟩
    exact ⟨(axis, region.axis), ⟨hk, hpadded⟩, hregion.symm⟩

theorem modify_length_append {α : Type} (f : α → α) (value : α) (done rest : List α) :
    (done ++ value :: rest).modify done.length f = done ++ f value :: rest := by
  induction done with
  | nil => rfl
  | cons first done ih => exact congrArg (first :: ·) ih

/-- Attaching the regions of the padded axes gives the axes back. -/
theorem attachRegions_padRegions {axes : List ConcreteAxis} (h : ∀ axis ∈ axes, axis.Sound) :
    attachRegions (axes.map ConcreteAxis.bare) (padRegions axes) =
      axes.map ConcreteAxis.walk := by
  -- the axes before position `done.length` have their pads already
  have hall : ∀ (done : List WalkAxis) (axes : List ConcreteAxis), (∀ axis ∈ axes, axis.Sound) →
      attachRegions (done ++ axes.map ConcreteAxis.bare)
        (((axes.zipIdx done.length).filter fun entry => entry.1.padded).map fun entry =>
          entry.1.region entry.2) = done ++ axes.map ConcreteAxis.walk := by
    intro done axes
    induction axes generalizing done with
    | nil =>
        intro _
        rfl
    | cons axis rest ih =>
        intro hsound
        have hnext := ih (done ++ [axis.walk]) fun a ha => hsound a (by simp [ha])
        rw [List.length_append, List.length_singleton, List.append_assoc, List.singleton_append,
          List.append_assoc, List.singleton_append] at hnext
        rw [List.map_cons, List.map_cons, List.zipIdx_cons]
        cases hpadded : axis.padded with
        | true =>
            simp only [List.filter_cons, hpadded, if_true, List.map_cons]
            rw [← hnext]
            have hmodify : (done ++ axis.bare :: rest.map ConcreteAxis.bare).modify done.length
                (axis.region done.length).attach =
                  done ++ axis.walk :: rest.map ConcreteAxis.bare := by
              rw [modify_length_append]
              rfl
            exact congrArg (attachRegions · _) hmodify
        | false =>
            have hbare : axis.bare = axis.walk := by
              obtain ⟨hlo, hhi⟩ := (hsound axis (by simp)).bare hpadded
              simp [ConcreteAxis.bare, ConcreteAxis.walk, hlo, hhi]
            simp only [List.filter_cons, hpadded, Bool.false_eq_true, if_false]
            rw [← hnext, hbare]
  exact hall [] axes h

/-! ### The total -/

theorem totalElements_eq_ok {axes : List ConcreteAxis} (h : ∀ axis ∈ axes, axis.Sound)
    {total elements : Int} (hrun : totalElements axes total = .ok elements) :
    elements = total * (axes.map ConcreteAxis.cells).prod := by
  induction axes generalizing total with
  | nil =>
      cases hrun
      simp
  | cons axis rest ih =>
      simp only [totalElements, bind_ok_iff, checkedOr_eq_ok] at hrun
      obtain ⟨padded, hpadded, _, ⟨-, rfl⟩, hrest⟩ := hrun
      have hcells : padded = axis.cells := by
        unfold ConcreteAxis.paddedExtent at hpadded
        cases hflag : axis.padded with
        | true =>
            simp only [hflag, if_pos, bind_ok_iff, checkedOr_eq_ok] at hpadded
            obtain ⟨_, ⟨-, rfl⟩, -, rfl⟩ := hpadded
            rfl
        | false =>
            obtain ⟨hlo, hhi⟩ := (h axis (by simp)).bare hflag
            simp only [hflag, Bool.false_eq_true, if_false, Outcome.ok.injEq] at hpadded
            simp [ConcreteAxis.cells, hlo, hhi, hpadded]
      rw [ih (fun a ha => h a (by simp [ha])) hrest, hcells, List.map_cons, List.prod_cons,
        mul_assoc]

/-! ### The merged axis of an original axis -/

/-- The original axis `index` lies in run number `axis`. -/
def InRun (runs : List (List ConcreteAxis)) (axis index : Nat) : Prop :=
  (runs.take axis).flatten.length ≤ index ∧ index < (runs.take (axis + 1)).flatten.length

theorem StandFor.inRun {runs : List (List ConcreteAxis)} {merged : List (ConcreteAxis × Nat)}
    (h : StandFor runs merged) {index axis : Nat}
    (haxis : (originalToCoalesced merged)[index]? = some axis) : InRun runs axis index := by
  -- the runs before `start` have been passed
  have hall : ∀ (start : Nat) {runs merged}, StandFor runs merged → ∀ {index},
      ((merged.zipIdx start).flatMap fun entry => List.replicate entry.1.2 entry.2)[index]? =
        some axis → start ≤ axis ∧ InRun runs (axis - start) index := by
    intro start runs merged h
    induction h generalizing start with
    | nil =>
        intro index hindex
        simp at hindex
    | @cons run entry runs merged hrun _ ih =>
        intro index hindex
        rw [List.zipIdx_cons, List.flatMap_cons, List.getElem?_append, List.length_replicate]
          at hindex
        dsimp only at hindex
        split at hindex
        · rename_i hlt
          rw [List.getElem?_replicate, if_pos hlt, Option.some.injEq] at hindex
          subst hindex
          refine ⟨le_refl _, ?_⟩
          rw [Nat.sub_self]
          simp [InRun, hrun.2, hlt]
        · rename_i hge
          obtain ⟨hstart, hlo, hhi⟩ := ih (start + 1) hindex
          refine ⟨by omega, ?_⟩
          have hnext : axis - start = axis - (start + 1) + 1 := by omega
          rw [hnext]
          simp only [InRun, List.take_succ_cons, List.flatten_cons, List.length_append, hrun.2]
          omega
  exact (hall 0 h haxis).2

/-! ### The bound plan -/

/-- The bound plan against the axes it was made from. -/
structure Coalesced (plan : RelocationPlan) (axes : List ConcreteAxis) (bound : BoundPlan) :
    Prop where
  visits_eq : visits bound.walkAxes 0 0 = visits (axes.map ConcreteAxis.walk) 0 0
  size : 0 < bound.elementSize ∧ 8 * bound.elementSize = plan.dst.elementType.bitwidth
  total : bound.totalBytes = (axes.map ConcreteAxis.cells).prod * bound.elementSize
  /-- Every axis of the result stands for a run of neighbours. -/
  runs : ∃ runs : List (List ConcreteAxis), runs.flatten = axes ∧ [] ∉ runs ∧
    runs.length = bound.walkAxes.length ∧
    (∀ (k : Nat) (run : List ConcreteAxis) (axis : ConcreteAxis), runs[k]? = some run →
      axis ∈ run → axis.padded = true → run = [axis] ∧ bound.walkAxes[k]? = some axis.walk ∧
        axis.region k ∈ bound.padRegions) ∧
    (∀ region ∈ bound.padRegions, ∃ axis : ConcreteAxis, runs[region.axis]? = some [axis] ∧
      axis.padded = true ∧ region = axis.region region.axis) ∧
    List.Forall₂ (fun entry renamed : Alignment => renamed.bytes = entry.bytes ∧
      InRun runs renamed.axis entry.axis) plan.alignment bound.requiredAlignments
  /-- No two neighbours without pads are contiguous on both sides with products in range. -/
  maximal : ∀ (k : Nat) (outer inner : WalkAxis), bound.walkAxes[k]? = some outer →
    bound.walkAxes[k + 1]? = some inner →
    (∀ region ∈ bound.padRegions, region.axis ≠ k ∧ region.axis ≠ k + 1) →
    ¬ (FitsI64 (inner.srcStride * inner.extent) ∧ FitsI64 (inner.dstStride * inner.extent) ∧
      FitsI64 (outer.extent * inner.extent) ∧
      outer.srcStride = inner.srcStride * inner.extent ∧
      outer.dstStride = inner.dstStride * inner.extent)

theorem zip_map_bare (axes : List ConcreteAxis) :
    ((axes.map ConcreteAxis.extent).zip ((axes.map ConcreteAxis.srcStride).zip
      (axes.map ConcreteAxis.dstStride))).map (fun entry =>
        ({ extent := entry.1, srcStride := entry.2.1, dstStride := entry.2.2, lo := 0,
           hi := 0 } : WalkAxis)) = axes.map ConcreteAxis.bare := by
  induction axes with
  | nil => rfl
  | cons axis rest ih => exact congrArg (axis.bare :: ·) ih

section Assemble

variable {plan : RelocationPlan} {override : Strategy} {axes : List ConcreteAxis}
  {bound : BoundPlan}

theorem coalesce_sound (hsound : ∀ axis ∈ axes, axis.Sound) :
    ∀ axis ∈ (coalesce axes).map Prod.fst, axis.Sound := by
  obtain ⟨runs, hruns, rfl⟩ := exists_runs axes
  intro axis hmem
  obtain ⟨entry, hentry, rfl⟩ := List.mem_map.mp hmem
  exact hruns.sound hsound entry hentry

/-- The fields `bind` computes from the merged axes. -/
theorem assembleBound_eq_ok (h : assembleBound plan override axes = .ok bound) :
    ∃ elements, totalElements ((coalesce axes).map Prod.fst) 1 = .ok elements ∧
      (0 < bound.elementSize ∧ 8 * bound.elementSize = plan.dst.elementType.bitwidth) ∧
      bound.totalBytes = elements * bound.elementSize ∧
      bound.extents = ((coalesce axes).map Prod.fst).map ConcreteAxis.extent ∧
      bound.bareAxes = ((coalesce axes).map Prod.fst).map ConcreteAxis.bare ∧
      bound.padRegions = padRegions ((coalesce axes).map Prod.fst) ∧
      mapEach plan.alignment (bindAlignment plan.axes.length
        (originalToCoalesced (coalesce axes))) = .ok bound.requiredAlignments := by
  simp only [assembleBound, bind_ok_iff, exists_unit, require_eq_ok, checkedOr_eq_ok, pure_eq,
    Outcome.ok.injEq] at h
  obtain ⟨hwidth, alignments, halignments, elements, helements, _, ⟨-, rfl⟩, rfl⟩ := h
  exact ⟨elements, helements, ⟨by dsimp only; omega, by dsimp only; omega⟩, rfl, rfl,
    zip_map_bare _, rfl, halignments⟩

/-- The bound plan has the merged axes, each with its pads. -/
theorem walkAxes_of_assembleBound (hsound : ∀ axis ∈ axes, axis.Sound)
    (h : assembleBound plan override axes = .ok bound) :
    bound.walkAxes = (coalesce axes).map fun entry => entry.1.walk := by
  obtain ⟨-, -, -, -, -, hbare, hregions, -⟩ := assembleBound_eq_ok h
  rw [BoundPlan.walkAxes, hbare, hregions, attachRegions_padRegions (coalesce_sound hsound),
    List.map_map]
  rfl

theorem mem_padRegions_of_assembleBound (h : assembleBound plan override axes = .ok bound)
    {region : PadRegion} : region ∈ bound.padRegions ↔
      ∃ entry, (coalesce axes)[region.axis]? = some entry ∧ entry.1.padded = true ∧
        region = entry.1.region region.axis := by
  obtain ⟨-, -, -, -, -, -, hregions, -⟩ := assembleBound_eq_ok h
  rw [hregions, mem_padRegions]
  constructor
  · rintro ⟨axis, haxis, hpadded, hregion⟩
    rw [List.getElem?_map, Option.map_eq_some_iff] at haxis
    obtain ⟨entry, hentry, rfl⟩ := haxis
    exact ⟨entry, hentry, hpadded, hregion⟩
  · rintro ⟨entry, hentry, hpadded, hregion⟩
    exact ⟨entry.1, by rw [List.getElem?_map, hentry, Option.map_some], hpadded, hregion⟩

theorem totalBytes_of_assembleBound (hsound : ∀ axis ∈ axes, axis.Sound)
    (h : assembleBound plan override axes = .ok bound) :
    bound.totalBytes = (axes.map ConcreteAxis.cells).prod * bound.elementSize := by
  obtain ⟨elements, helements, -, htotal, -⟩ := assembleBound_eq_ok h
  obtain ⟨runs, hruns, hflatten⟩ := exists_runs axes
  have hcells := hruns.cells_eq (hflatten ▸ hsound)
  rw [hflatten] at hcells
  rw [htotal, totalElements_eq_ok (coalesce_sound hsound) helements, one_mul, List.map_map,
    ← hcells]
  rfl

/-- A padded axis keeps its place, its pads and its region. -/
theorem padded_of_assembleBound (hsound : ∀ axis ∈ axes, axis.Sound)
    (h : assembleBound plan override axes = .ok bound) {runs : List (List ConcreteAxis)}
    (hruns : StandFor runs (coalesce axes)) {k : Nat} {run : List ConcreteAxis}
    {axis : ConcreteAxis} (hk : runs[k]? = some run) (hmem : axis ∈ run)
    (hpadded : axis.padded = true) : run = [axis] ∧ bound.walkAxes[k]? = some axis.walk ∧
      axis.region k ∈ bound.padRegions := by
  obtain ⟨hlt, rfl⟩ := List.getElem?_eq_some_iff.mp hk
  have hlt' : k < (coalesce axes).length := hruns.length_eq ▸ hlt
  obtain ⟨hsingle, haxis⟩ := (hruns.get hlt hlt').1.eq_singleton hmem hpadded
  have hentry : (coalesce axes)[k].1 = axis := haxis
  refine ⟨hsingle, ?_, ?_⟩
  · rw [walkAxes_of_assembleBound hsound h, List.getElem?_map, List.getElem?_eq_getElem hlt',
      Option.map_some, hentry]
  · rw [mem_padRegions_of_assembleBound h]
    exact ⟨_, List.getElem?_eq_getElem hlt', by rw [hentry, hpadded], by rw [hentry]; rfl⟩

/-- A region of the bound plan belongs to a padded axis. -/
theorem region_of_assembleBound (h : assembleBound plan override axes = .ok bound)
    {runs : List (List ConcreteAxis)} (hruns : StandFor runs (coalesce axes))
    {region : PadRegion} (hregion : region ∈ bound.padRegions) :
    ∃ axis : ConcreteAxis, runs[region.axis]? = some [axis] ∧ axis.padded = true ∧
      region = axis.region region.axis := by
  rw [mem_padRegions_of_assembleBound h] at hregion
  obtain ⟨entry, hentry, hpadded, hregion⟩ := hregion
  obtain ⟨hlt', rfl⟩ := List.getElem?_eq_some_iff.mp hentry
  have hlt : region.axis < runs.length := hruns.length_eq ▸ hlt'
  have hmerges : Merges runs[region.axis] (coalesce axes)[region.axis].1 :=
    (hruns.get hlt hlt').1
  exact ⟨_, by rw [List.getElem?_eq_getElem hlt, hmerges.eq_of_padded hpadded], hpadded, hregion⟩

theorem alignments_of_assembleBound (h : assembleBound plan override axes = .ok bound)
    {runs : List (List ConcreteAxis)} (hruns : StandFor runs (coalesce axes)) :
    List.Forall₂ (fun entry renamed : Alignment => renamed.bytes = entry.bytes ∧
      InRun runs renamed.axis entry.axis) plan.alignment bound.requiredAlignments := by
  obtain ⟨-, -, -, -, -, -, -, halignments⟩ := assembleBound_eq_ok h
  refine (mapEach_eq_ok.mp halignments).imp fun entry renamed hrun => ?_
  simp only [bindAlignment, bind_ok_iff, exists_unit, fetch_eq_ok, pure_eq, Outcome.ok.injEq]
    at hrun
  obtain ⟨-, axis, haxis, rfl⟩ := hrun
  exact ⟨rfl, hruns.inRun haxis⟩

theorem maximal_of_assembleBound (hsound : ∀ axis ∈ axes, axis.Sound)
    (h : assembleBound plan override axes = .ok bound) {k : Nat} {outer inner : WalkAxis}
    (houter : bound.walkAxes[k]? = some outer) (hinner : bound.walkAxes[k + 1]? = some inner)
    (hbare : ∀ region ∈ bound.padRegions, region.axis ≠ k ∧ region.axis ≠ k + 1) :
    ¬ (FitsI64 (inner.srcStride * inner.extent) ∧ FitsI64 (inner.dstStride * inner.extent) ∧
      FitsI64 (outer.extent * inner.extent) ∧
      outer.srcStride = inner.srcStride * inner.extent ∧
      outer.dstStride = inner.dstStride * inner.extent) := by
  rw [walkAxes_of_assembleBound hsound h, List.getElem?_map, Option.map_eq_some_iff]
    at houter hinner
  obtain ⟨first, hfirst, rfl⟩ := houter
  obtain ⟨second, hsecond, rfl⟩ := hinner
  have hunpadded : ∀ {j : Nat} {entry : ConcreteAxis × Nat}, (coalesce axes)[j]? = some entry →
      (∀ region ∈ bound.padRegions, region.axis ≠ j) → entry.1.padded = false := by
    intro j entry hentry hno
    by_contra hpadded
    rw [Bool.not_eq_false] at hpadded
    exact hno (entry.1.region j)
      ((mem_padRegions_of_assembleBound h).mpr ⟨entry, hentry, hpadded, rfl⟩) rfl
  rintro ⟨hsrc, hdst, hextent, hsrcEq, hdstEq⟩
  exact not_mergeable_coalesce hfirst hsecond
    ⟨hunpadded hfirst fun r hr => (hbare r hr).1, hunpadded hsecond fun r hr => (hbare r hr).2,
      hsrc, hdst, hextent, hsrcEq, hdstEq⟩

theorem coalesced_of_assembleBound (hsound : ∀ axis ∈ axes, axis.Sound)
    (h : assembleBound plan override axes = .ok bound) : Coalesced plan axes bound := by
  have hwalk := walkAxes_of_assembleBound hsound h
  obtain ⟨runs, hruns, hflatten⟩ := exists_runs axes
  obtain ⟨-, -, hsize, -⟩ := assembleBound_eq_ok h
  refine ⟨?_, hsize, totalBytes_of_assembleBound hsound h, ⟨runs, hflatten, ?_, ?_, ?_, ?_, ?_⟩,
    fun _ _ _ => maximal_of_assembleBound hsound h⟩
  · rw [hwalk, ← hruns.visits_eq (hflatten ▸ hsound), hflatten]
  · intro hnil
    obtain ⟨k, hk⟩ := List.mem_iff_getElem?.mp hnil
    obtain ⟨hlt, hrun⟩ := List.getElem?_eq_some_iff.mp hk
    exact (hruns.get hlt (hruns.length_eq ▸ hlt)).1.ne_nil hrun
  · rw [hwalk, List.length_map, hruns.length_eq]
  · intro k run axis
    exact padded_of_assembleBound hsound h hruns
  · intro region
    exact region_of_assembleBound h hruns
  · exact alignments_of_assembleBound h hruns

end Assemble

/-- Binding merges axes without changing what the plan means. -/
theorem bind_coalesced {plan : RelocationPlan} {map : SymbolMap} {override : Strategy}
    {bound : BoundPlan} (h : bind plan map override = .ok bound) :
    ∃ symbols axes, resolveSymbols plan.symbols map = .ok symbols ∧
      concreteAxes plan map = .ok axes ∧
      Attached plan symbols (fun k => padOf k none plan.padFill) axes ∧
      Coalesced plan axes bound := by
  rw [bind_eq, bind_ok_iff] at h
  obtain ⟨axes, haxes, hassemble⟩ := h
  obtain ⟨symbols, hsymbols, -, hattached⟩ := concreteAxes_attached haxes
  exact ⟨symbols, axes, hsymbols, haxes, hattached,
    coalesced_of_assembleBound (concreteAxes_sound haxes) hassemble⟩

/-! ### A padded row of matrices -/

def denseDesc (extents : List Int) : TensorDesc where
  extents := extents.map fun extent => [.pushConst extent]
  strides := []
  offset := [.pushConst 0]
  elementType := ⟨.float, 32⟩

def constantAxis (extent stride : Int) : Axis where
  name := []
  extent := [.pushConst extent]
  srcStride := [.pushConst stride]
  dstStride := [.pushConst stride]

/-- Two matrices of two by three cells, and room for one more behind them. -/
def matrixRow : RelocationPlan where
  symbols := []
  src := denseDesc [2, 2, 3]
  dst := denseDesc [3, 2, 3]
  perm := [0, 1, 2]
  axes := [constantAxis 2 6, constantAxis 2 3, constantAxis 3 1]
  padFill := [⟨0, [.pushConst 0], [.pushConst 1], ⟨.float, 32⟩, 7⟩]
  divisibility := []
  alignment := [⟨2, 16⟩]
  contiguity := []
  noCopy := false
  runtimePadCheck := true
  inverse := []

def noSymbols : SymbolMap := ⟨[], .nil, by simp⟩

def matrixRowBound : BoundPlan where
  extents := [2, 6]
  srcStrides := [6, 1]
  dstStrides := [6, 1]
  perm := [0, 1, 2]
  padRegions := [⟨0, 0, 1, 7⟩]
  elementSize := 4
  totalBytes := 72
  noCopy := false
  typed := false
  strategy := .singleThreadSimd
  L := 6
  requiredAlignments := [⟨1, 16⟩]

/-- Each matrix becomes one axis. -/
theorem bind_matrixRow : bind matrixRow noSymbols .auto = .ok matrixRowBound ∧
    ∃ axes, Coalesced matrixRow axes matrixRowBound := by
  have hbind : bind matrixRow noSymbols .auto = .ok matrixRowBound := by decide +kernel
  obtain ⟨-, axes, -, -, -, hcoalesced⟩ := bind_coalesced hbind
  exact ⟨hbind, axes, hcoalesced⟩

end SymReloc
