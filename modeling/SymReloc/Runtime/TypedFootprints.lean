import SymReloc.Runtime.PlainWalk

/-!
# Footprints of typed plans

The tensor that enters a stage is the source along the layout's axes, widened by every pad whose
stage has been reached.  `bindTyped` counts exactly these tensors, in checked words; that the
source bytes are those the executor reads, and the destination bytes those it writes, it leaves to
the layout.
-/

namespace SymReloc

open Outcome Writes

/-! ### The chain, operation by operation -/

namespace TypedRelocationPlan

variable (plan : TypedRelocationPlan)

/-- The stage an axis's pad takes effect at, declared by the last fill that names it. -/
def padStage (axis : Nat) : Nat :=
  ((plan.fills.reverse.find? fun fill => fill.dstAxis = axis).map TypedFill.stage).getD 0

/-- The pads of one stage widen their axes. -/
def applyPads (axes : List ConcreteAxis) (stage : Nat) (extents : List Int) : List Int :=
  (axes.zipIdx.zip extents).map fun entry =>
    if plan.padStage entry.1.2 = stage then entry.1.1.lo + entry.2 + entry.1.1.hi else entry.2

/-- The extents, along the axes, of the tensor that enters a stage.  A stage changes values and
    their type and no extent. -/
def tensorAt (axes : List ConcreteAxis) : Nat → List Int
  | 0 => plan.applyPads axes 0 (axes.map ConcreteAxis.extent)
  | stage + 1 => plan.applyPads axes (stage + 1) (tensorAt axes stage)

/-- The extent of an axis in the tensor that enters a stage. -/
def extentAt (stage : Nat) (entry : ConcreteAxis × Nat) : Int :=
  if plan.padStage entry.2 ≤ stage then entry.1.lo + entry.1.extent + entry.1.hi
  else entry.1.extent

theorem applyPads_map (axes : List ConcreteAxis) (stage : Nat) (f : ConcreteAxis × Nat → Int) :
    plan.applyPads axes stage (axes.zipIdx.map f) = axes.zipIdx.map fun entry =>
      if plan.padStage entry.2 = stage then entry.1.lo + f entry + entry.1.hi else f entry := by
  unfold applyPads
  rw [← List.map_id axes.zipIdx, List.zip_map_right, List.map_map, List.map_id]
  have hself : axes.zipIdx.zip axes.zipIdx = axes.zipIdx.map fun entry => (entry, entry) := by
    rw [List.zip_eq_zipWith, List.zipWith_self]
  rw [hself, List.map_map]
  rfl

theorem tensorAt_eq (axes : List ConcreteAxis) (stage : Nat) :
    plan.tensorAt axes stage = axes.zipIdx.map (plan.extentAt stage) := by
  have hextents : axes.map ConcreteAxis.extent = axes.zipIdx.map fun entry => entry.1.extent := by
    conv_lhs => rw [← List.zipIdx_map_fst 0 axes]
    rw [List.map_map]
    rfl
  induction stage with
  | zero =>
      rw [tensorAt, hextents, applyPads_map]
      refine List.map_congr_left fun entry _ => ?_
      simp only [extentAt, Nat.le_zero]
  | succ stage ih =>
      rw [tensorAt, ih, applyPads_map]
      refine List.map_congr_left fun entry _ => ?_
      simp only [extentAt]
      by_cases hnow : plan.padStage entry.2 = stage + 1
      · rw [if_pos hnow, if_neg (by omega), if_pos (by omega)]
      · rw [if_neg hnow]
        by_cases hearlier : plan.padStage entry.2 ≤ stage
        · rw [if_pos hearlier, if_pos (by omega)]
        · rw [if_neg hearlier, if_neg (by omega)]

end TypedRelocationPlan

/-! ### The counts of `bindTyped` -/

theorem evalField_text {stream : ExprStream} {symbols : List Int} {what what' : String}
    {value : Int} (h : evalField stream symbols what = .ok value) :
    evalField stream symbols what' = .ok value := by
  rw [evalField, mapError_eq_ok] at h ⊢
  exact h

/-- The pads found so far, for every axis. -/
structure PadEntries (plan : TypedRelocationPlan) (symbols : List Int)
    (found : Nat → Option PadFill) (pads : List (Int × Nat)) : Prop where
  bare : ∀ axis entry, pads[axis]? = some entry → found axis = none → entry = (0, 0)
  padded : ∀ axis entry pad, pads[axis]? = some entry → found axis = some pad →
    ∃ lo hi, evalField pad.lo symbols "pad lo" = .ok lo ∧
      evalField pad.hi symbols "pad hi" = .ok hi ∧ entry = (lo + hi, plan.padStage axis)

theorem PadEntries.footprint {plan : TypedRelocationPlan} {symbols : List Int}
    {found : Nat → Option PadFill} {padFills : List PadFill} {pads pads' : List (Int × Nat)}
    (h : PadEntries plan symbols found pads)
    (hrun : padFootprint plan.fills symbols padFills pads = .ok pads') :
    PadEntries plan symbols (fun axis => padOf axis (found axis) padFills) pads' ∧
      pads'.length = pads.length := by
  induction padFills generalizing found pads with
  | nil =>
      cases hrun
      exact ⟨h, rfl⟩
  | cons pad rest ih =>
      simp only [padFootprint, bind_ok_iff, exists_unit, require_eq_ok, fetch_eq_ok,
        checkedOr_eq_ok] at hrun
      obtain ⟨hlt, lo, hlo, hi, hhi, _, ⟨-, rfl⟩, -, old, hold, hrest⟩ := hrun
      -- without a fill the stage stays that of an earlier pad, which is zero too
      have hstage : ((plan.fills.reverse.find? fun fill => fill.dstAxis = pad.dstAxis).map
          TypedFill.stage).getD old.2 = plan.padStage pad.dstAxis := by
        cases hfind : plan.fills.reverse.find? fun fill => fill.dstAxis = pad.dstAxis with
        | some fill => simp [TypedRelocationPlan.padStage, hfind]
        | none =>
            cases hfound : found pad.dstAxis with
            | none =>
                rw [h.bare _ _ hold hfound]
                simp [TypedRelocationPlan.padStage, hfind]
            | some earlier =>
                obtain ⟨_, _, -, -, rfl⟩ := h.padded _ _ earlier hold hfound
                simp [TypedRelocationPlan.padStage, hfind]
      rw [hstage] at hrest
      have hnext : PadEntries plan symbols
          (fun axis => if pad.dstAxis = axis then some pad else found axis)
          (pads.set pad.dstAxis (lo + hi, plan.padStage pad.dstAxis)) := by
        constructor
        · intro axis entry hentry hnone
          rw [List.getElem?_set] at hentry
          by_cases haxis : pad.dstAxis = axis
          · rw [if_pos haxis] at hnone
            cases hnone
          · rw [if_neg haxis] at hentry hnone
            exact h.bare axis entry hentry hnone
        · intro axis entry other hentry hsome
          rw [List.getElem?_set] at hentry
          by_cases haxis : pad.dstAxis = axis
          · subst haxis
            rw [if_pos rfl, if_pos hlt, Option.some.injEq] at hentry
            rw [if_pos rfl, Option.some.injEq] at hsome
            subst hsome
            exact ⟨lo, hi, hlo, hhi, hentry.symm⟩
          · rw [if_neg haxis] at hentry hsome
            exact h.padded axis entry other hentry hsome
      obtain ⟨hfinal, hlength⟩ := ih hnext hrest
      exact ⟨hfinal, by rw [hlength, List.length_set]⟩

/-- The extents and pads of a layout's axes, as the counts read them. -/
theorem zip_padFootprint {plan : TypedRelocationPlan} {symbols axisExtents : List Int}
    {axes : List ConcreteAxis} {pads : List (Int × Nat)}
    (haxes : Attached plan.layout symbols (fun k => padOf k none plan.layout.padFill) axes)
    (hextents : evalAll (plan.layout.axes.map Axis.extent) symbols "layout axis extent" =
      .ok axisExtents)
    (hpads : padFootprint plan.fills symbols plan.layout.padFill
      (axisExtents.map fun _ => (0, 0)) = .ok pads) (boundary : Nat) :
    (axisExtents.zip pads).map (fun entry =>
        if entry.2.1 ≠ 0 ∧ entry.2.2 ≤ boundary then entry.1 + entry.2.1 else entry.1) =
      axes.zipIdx.map (plan.extentAt boundary) := by
  have hempty : PadEntries plan symbols (fun _ => none) (axisExtents.map fun _ => (0, 0)) := by
    constructor
    · intro axis entry hentry _
      rw [List.getElem?_map, Option.map_eq_some_iff] at hentry
      obtain ⟨_, -, rfl⟩ := hentry
      rfl
    · intro axis entry pad _ hnone
      cases hnone
  obtain ⟨hentries, hlength⟩ := hempty.footprint hpads
  rw [List.length_map] at hlength
  have hforall := mapEach_eq_ok.mp hextents
  have haxesLength : axisExtents.length = axes.length := by
    rw [← hforall.length_eq, List.length_map, haxes.length]
  refine List.ext_getElem (by simp [hlength, haxesLength]) fun k hk hk' => ?_
  have hkaxes : k < axes.length := by simpa using hk'
  have hkextents : k < axisExtents.length := haxesLength ▸ hkaxes
  have hkpads : k < pads.length := hlength ▸ hkextents
  obtain ⟨hsound, hcarries, source, hsource, hevaluates⟩ :=
    haxes.each k axes[k] (List.getElem?_eq_getElem hkaxes)
  have hextent : axisExtents[k] = axes[k].extent := by
    have hget := hforall.get (by rw [hforall.length_eq]; exact hkextents) hkextents
    obtain ⟨hlt, hsourceEq⟩ := List.getElem?_eq_some_iff.mp hsource
    simp only [List.get_eq_getElem, List.getElem_map, hsourceEq] at hget
    have hsame : evalField source.extent symbols "layout axis extent" = .ok axes[k].extent :=
      evalField_text hevaluates.extent
    rw [hget, Outcome.ok.injEq] at hsame
    exact hsame
  simp only [List.getElem_map, List.getElem_zip, List.getElem_zipIdx, Nat.zero_add, hextent,
    TypedRelocationPlan.extentAt]
  have hentry := List.getElem?_eq_getElem hkpads
  cases hpad : padOf k none plan.layout.padFill with
  | none =>
      rw [hpad] at hcarries
      obtain ⟨-, hlo, hhi⟩ := hcarries
      rw [hentries.bare k _ hentry hpad, hlo, hhi]
      simp
  | some pad =>
      rw [hpad] at hcarries
      obtain ⟨-, -, hlo, hhi⟩ := hcarries
      obtain ⟨lo, hi, hlo', hhi', heq⟩ := hentries.padded k _ pad hentry hpad
      rw [hlo, Outcome.ok.injEq] at hlo'
      rw [hhi, Outcome.ok.injEq] at hhi'
      subst hlo' hhi'
      rw [heq]
      by_cases hreached : plan.padStage k ≤ boundary
      · by_cases hwidth : axes[k].lo + axes[k].hi = 0
        · rw [if_neg (by simp [hwidth]), if_pos hreached]
          omega
        · rw [if_pos ⟨hwidth, hreached⟩, if_pos hreached]
          ring
      · rw [if_neg (by simp [hreached]), if_neg hreached]

theorem cutElements_eq_ok {boundary : Nat} {axes : List (Int × (Int × Nat))}
    {elements result : Int} (hfits : FitsI64 elements)
    (h : cutElements boundary axes elements = .ok result) :
    FitsI64 result ∧ result = elements * (axes.map fun entry =>
      if entry.2.1 ≠ 0 ∧ entry.2.2 ≤ boundary then entry.1 + entry.2.1 else entry.1).prod := by
  induction axes generalizing elements with
  | nil =>
      cases h
      exact ⟨hfits, by simp⟩
  | cons axis rest ih =>
      obtain ⟨extent, width, stage⟩ := axis
      rw [List.map_cons, List.prod_cons, ← mul_assoc]
      by_cases hpad : width ≠ 0 ∧ stage ≤ boundary
      · simp only [cutElements, if_pos hpad, bind_ok_iff, checkedOr_eq_ok] at h
        obtain ⟨_, ⟨-, rfl⟩, _, ⟨hproduct, rfl⟩, hrest⟩ := h
        rw [if_pos hpad]
        exact ih hproduct hrest
      · simp only [cutElements, if_neg hpad, ok_bind, bind_ok_iff, checkedOr_eq_ok] at h
        obtain ⟨_, ⟨hproduct, rfl⟩, hrest⟩ := h
        rw [if_neg hpad]
        exact ih hproduct hrest

/-! ### What is counted -/

/-- The counts of a bound plan are those of the chain, all in signed words. -/
structure TypedBoundPlan.Counts (plan : TypedRelocationPlan) (axes : List ConcreteAxis)
    (bound : TypedBoundPlan) : Prop where
  cuts : ∀ k ≤ plan.stages.length, ∃ cut, bound.cuts[k]? = some cut ∧
    cut.elementType = typeAt plan.source.elementType plan.stages k ∧
    cut.elements = (plan.tensorAt axes k).prod ∧
    cut.bytes = (plan.tensorAt axes k).prod * byteWidth cut.elementType ∧
    FitsI64 cut.elements ∧ FitsI64 cut.bytes
  source : bound.sourceBytes = bound.sourceExtents.prod * byteWidth plan.source.elementType ∧
    FitsI64 bound.sourceExtents.prod ∧ FitsI64 bound.sourceBytes
  result : bound.resultExtents.prod = (plan.tensorAt axes plan.stages.length).prod ∧
    bound.destinationBytes = bound.resultExtents.prod *
      byteWidth (typeAt plan.source.elementType plan.stages plan.stages.length) ∧
    FitsI64 bound.resultExtents.prod ∧ FitsI64 bound.destinationBytes

theorem fitsI64_checkedProduct {text : String} {extents : List Int} {product result : Int}
    (hfits : FitsI64 product) (h : checkedProduct text extents product = .ok result) :
    FitsI64 result := by
  induction extents generalizing product with
  | nil =>
      cases h
      exact hfits
  | cons extent rest ih =>
      simp only [checkedProduct, bind_ok_iff, checkedOr_eq_ok] at h
      obtain ⟨_, ⟨hproduct, rfl⟩, hrest⟩ := h
      exact ih hproduct hrest

theorem bindTyped_counts {plan : TypedRelocationPlan} {map : SymbolMap}
    {parameters : ParameterMap} {bound : TypedBoundPlan} {axes : List ConcreteAxis}
    (h : bindTyped plan map parameters = .ok bound)
    (haxes : concreteAxes plan.layout map = .ok axes) : bound.Counts plan axes := by
  simp only [bindTyped, bind_ok_iff, exists_unit, Prod.exists, require_eq_ok, mapError_eq_ok,
    fetch_eq_ok, checkedOr_eq_ok, pure_eq, Outcome.ok.injEq] at h
  obtain ⟨layout, -, symbols, hsymbols, sourceExtents, -, resultExtents, -, -, stages, _, -, -,
    sourceElements, hsourceElements, _, ⟨hsourceFits, rfl⟩, axisExtents, hextents, pads, hpads,
    cuts, hcuts, last, hlast, -, elements, helements, hcount, rfl⟩ := h
  obtain ⟨symbols', hsymbols', -, hattached⟩ := concreteAxes_attached haxes
  rw [hsymbols, Outcome.ok.injEq] at hsymbols'
  subst hsymbols'
  have hone : FitsI64 1 := by decide
  have hcut : ∀ k ≤ plan.stages.length, ∃ cut, cuts[k]? = some cut ∧
      cut.elementType = typeAt plan.source.elementType plan.stages k ∧
      cut.elements = (plan.tensorAt axes k).prod ∧
      cut.bytes = (plan.tensorAt axes k).prod * byteWidth cut.elementType ∧
      FitsI64 cut.elements ∧ FitsI64 cut.bytes := by
    intro k hk
    have hforall := mapEach_eq_ok.mp hcuts
    have hlt : k < (List.range (plan.stages.length + 1)).length := by
      rw [List.length_range]
      omega
    have hlt' : k < cuts.length := hforall.length_eq ▸ hlt
    have hrun := hforall.get hlt hlt'
    simp only [List.get_eq_getElem, List.getElem_range, bindCut, bind_ok_iff, exists_unit,
      require_eq_ok, checkedOr_eq_ok, pure_eq, Outcome.ok.injEq, entryType_eq hk] at hrun
    obtain ⟨_, rfl, found, hfound, -, _, ⟨hbytes, rfl⟩, hcutEq⟩ := hrun
    obtain ⟨hfits, hproduct⟩ := cutElements_eq_ok hone hfound
    rw [one_mul, zip_padFootprint hattached hextents hpads, ← plan.tensorAt_eq] at hproduct
    refine ⟨cuts[k], List.getElem?_eq_getElem hlt', ?_⟩
    rw [← hcutEq]
    exact ⟨rfl, hproduct, by rw [hproduct], hfits, hbytes⟩
  have hsource := checkedProduct_eq_ok hsourceElements
  have hresult := checkedProduct_eq_ok helements
  rw [one_mul] at hsource hresult
  obtain ⟨cut, hcutLast, htype, hcutElements, hcutBytes, helementsFit, hbytesFit⟩ :=
    hcut plan.stages.length (le_refl _)
  rw [hlast, Option.some.injEq] at hcutLast
  subst hcutLast
  have hcountEq : resultExtents.prod = (plan.tensorAt axes plan.stages.length).prod := by
    rw [← hresult, hcount, hcutElements]
  refine ⟨hcut, ⟨by rw [hsource], hsource ▸ fitsI64_checkedProduct hone hsourceElements,
    hsourceFits⟩, hcountEq, ?_, ?_, hbytesFit⟩
  · dsimp only
    rw [hcutBytes, htype, hcountEq]
  · dsimp only
    rw [hcountEq, ← hcutElements]
    exact helementsFit

end SymReloc
