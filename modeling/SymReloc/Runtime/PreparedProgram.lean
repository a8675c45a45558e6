import SymReloc.Runtime.Pipeline
import SymReloc.Runtime.TypedProgram

/-!
# Prepared programs

What is known of a program that was prepared from a decoded and bound typed plan: the
types and parameter counts of its stages, the chain of types between them, and the
layout, whose strides and pads are not negative and whose result has as many cells as
the result descriptor says.
-/

namespace SymReloc

open Outcome

/-! ### Parameters -/

theorem length_readScales {param : Option BoundParameter} {scales : List Nat}
    (h : readScales param = .ok scales) :
    ∃ bound, param = some bound ∧ scales.length = bound.length.toNat := by
  cases param with
  | none => cases h
  | some bound =>
      simp only [readScales, bind_ok_iff, exists_unit, require_eq_ok] at h
      obtain ⟨-, -, hvalues⟩ := h
      exact ⟨bound, rfl, by rw [← (mapEach_eq_ok.mp hvalues).length_eq, List.length_range]⟩

theorem length_readZeroPoints {param : Option BoundParameter} {zeroPoints : List Int}
    (h : readZeroPoints param = .ok zeroPoints) :
    (param = none ∧ zeroPoints = [0]) ∨
      ∃ bound, param = some bound ∧ zeroPoints.length = bound.length.toNat := by
  cases param with
  | none =>
      cases h
      exact .inl ⟨rfl, rfl⟩
  | some bound =>
      simp only [readZeroPoints, bind_ok_iff, exists_unit, require_eq_ok] at h
      obtain ⟨-, -, hvalues⟩ := h
      exact .inr ⟨bound, rfl, by rw [← (mapEach_eq_ok.mp hvalues).length_eq, List.length_range]⟩

/-- A declared parameter against what it was bound to. -/
def StageParam.BindsTo (stage : ValueStage) (shape : List Int) (declared : StageParam) :
    Option BoundParameter → Prop
  | Option.none => declared = .none
  | some bound => declared ≠ .none ∧
      expectedLength shape stage.axis declared.rank = (.ok bound.length : Outcome BindError Int) ∧
      ∀ rank elementType inlineBits, declared = .inline rank elementType inlineBits →
        byteWidth elementType ≠ 0 ∧ bound = fromInline elementType inlineBits

theorem bindValue_length {symbols : List Int} {parameters : ParameterMap} {expected : Int}
    {name : Name} {extents : List ExprStream} {elementType : ElementType} {bound : BoundParameter}
    (h : bindValue symbols parameters expected name extents elementType = .ok bound) :
    bound.length = expected := by
  unfold bindValue at h
  split at h
  · cases h
  · by_cases hrank : extents.length = 0
    all_goals
      simp only [hrank, if_true, if_false, bind_ok_iff, exists_unit, require_eq_ok, pure_eq,
        Outcome.ok.injEq] at h
      obtain ⟨-, -, _, -, -, _, -, -, _, -, -, rfl⟩ := h
      rfl

theorem bindParameter_eq_ok {symbols : List Int} {parameters : ParameterMap} {stage : ValueStage}
    {shape : List Int} {isScale : Bool} {declared : StageParam} {bound : Option BoundParameter}
    (h : bindParameter symbols parameters stage shape isScale declared = .ok bound) :
    declared.BindsTo stage shape bound := by
  have htarget : ∀ {target : BoundParameter},
      bindParameter.checkTarget stage isScale target = .ok bound → bound = some target := by
    intro target hrun
    simp only [bindParameter.checkTarget, bind_ok_iff, exists_unit, pure_eq, Outcome.ok.injEq]
      at hrun
    exact hrun.2.symm
  cases declared with
  | none =>
      cases h
      rfl
  | inline rank elementType inlineBits =>
      simp only [bindParameter, bind_ok_iff, exists_unit, require_eq_ok] at h
      obtain ⟨expected, hexpected, hwidth, hlength, hrun⟩ := h
      rw [htarget hrun]
      refine ⟨by simp, by rw [hlength]; exact hexpected, fun _ _ _ heq => ?_⟩
      cases heq
      exact ⟨hwidth, rfl⟩
  | binding name extents elementType =>
      simp only [bindParameter, bind_ok_iff, exists_unit, require_eq_ok] at h
      obtain ⟨expected, hexpected, -, target, hvalue, hrun⟩ := h
      rw [htarget hrun]
      refine ⟨by simp, by rw [bindValue_length hvalue]; exact hexpected, fun _ _ _ heq => ?_⟩
      cases heq

/-! ### Bound stages -/

/-- A stage against what it was bound to. -/
structure ValueStage.BindsTo (stage : ValueStage) (bound : BoundStage) : Prop where
  transform : bound.transform = stage.transform
  policy : bound.policy = stage.policy
  input : bound.input = stage.input
  output : bound.output = stage.output
  channel : bound.channel = stage.channel
  shape : ∀ extent ∈ bound.shape, 1 ≤ extent
  scale : stage.scale.BindsTo stage bound.shape bound.scale
  zeroPoint : stage.zeroPoint.BindsTo stage bound.shape bound.zeroPoint

theorem bindStage_eq_ok {symbols : List Int} {parameters : ParameterMap} {stage : ValueStage}
    {total total' : Int} {bound : BoundStage}
    (h : bindStage symbols parameters stage total = .ok (bound, total')) : stage.BindsTo bound := by
  simp only [bindStage, bind_ok_iff, exists_unit, require_eq_ok, pure_eq, Outcome.ok.injEq,
    Prod.mk.injEq] at h
  obtain ⟨shape, -, hshape, -, scale, hscale, _, -, zeroPoint, hzero, _, -, rfl, -⟩ := h
  exact ⟨rfl, rfl, rfl, rfl, rfl, hshape, bindParameter_eq_ok hscale, bindParameter_eq_ok hzero⟩

theorem bindStages_eq_ok {symbols : List Int} {parameters : ParameterMap}
    {stages : List ValueStage} {total total' : Int} {bounds : List BoundStage}
    (h : bindStages symbols parameters stages total = .ok (bounds, total')) :
    List.Forall₂ ValueStage.BindsTo stages bounds := by
  induction stages generalizing total total' bounds with
  | nil =>
      cases h
      exact .nil
  | cons stage rest ih =>
      simp only [bindStages, bind_ok_iff, Prod.exists, pure_eq, Outcome.ok.injEq,
        Prod.mk.injEq] at h
      obtain ⟨bound, middle, hstage, bounds, last, hrest, rfl, -⟩ := h
      exact .cons (bindStage_eq_ok hstage) (ih hrest)

/-- A bound parameter has a value. -/
theorem StageParam.BindsTo.length_pos {stage : ValueStage} {shape : List Int}
    {declared : StageParam} {bound : BoundParameter}
    (h : declared.BindsTo stage shape (some bound)) (hshape : ∀ extent ∈ shape, 1 ≤ extent) :
    1 ≤ bound.length := by
  obtain ⟨-, hexpected, -⟩ := h
  unfold expectedLength at hexpected
  split at hexpected
  · rw [Outcome.ok.injEq] at hexpected
    exact hexpected.le
  · split at hexpected
    · rw [fetch_eq_ok] at hexpected
      exact hshape _ (List.mem_of_getElem? hexpected)
    · cases hexpected

/-! ### Prepared stages -/

namespace StageArithmetic

/-- The types the transform is implemented for. -/
def Typed (stage : StageArithmetic) : Prop :=
  match stage.transform with
  | .cast => (isFloatWidth stage.input 32 ∧
        (isFloatWidth stage.output 16 ∨ isBFloat16 stage.output)) ∨
      ((isFloatWidth stage.input 16 ∨ isBFloat16 stage.input) ∧ isFloatWidth stage.output 32)
  | .quantize => isFloatWidth stage.input 32 ∧ isInt8 stage.output
  | .dequantize => isInt8 stage.input ∧ isFloatWidth stage.output 32

/-- Every channel has its parameters. -/
def Sized (stage : StageArithmetic) : Prop :=
  match stage.transform with
  | .cast => stage.perChannel = false
  | .quantize => (stage.invScale.length : Int) = stage.channelLength
  | .dequantize => (stage.scale.length : Int) = stage.channelLength ∧
      (stage.zeroPoint.length = 1 ∨ (stage.zeroPoint.length : Int) = stage.channelLength)

/-- A stage that `prepareProgram` has checked, of a plan that was decoded and bound. -/
structure Sound (stage : StageArithmetic) : Prop where
  typed : stage.Typed
  sized : stage.Sized
  one : stage.perChannel = false → stage.channelLength = 1

end StageArithmetic

/-- The transform's own part of a prepared stage. -/
structure BoundStage.Prepares (bound : BoundStage) (stage : StageArithmetic) : Prop where
  transform : stage.transform = bound.transform
  policy : stage.policy = bound.policy
  input : stage.input = bound.input.type
  output : stage.output = bound.output.type
  typed : stage.Typed
  castScale : stage.transform = .cast → stage.scale = []
  quantize : stage.transform = .quantize → readScales bound.scale = .ok stage.scale ∧
    stage.invScale = stage.scale.map (Ieee.Format.binary32.div Quant.f32One)
  dequantize : stage.transform = .dequantize → readScales bound.scale = .ok stage.scale ∧
    readZeroPoints bound.zeroPoint = .ok stage.zeroPoint

theorem mapError_eq_ok {ε ε' α : Type} {context : ε → ε'} {run : Outcome ε α} {value : α} :
    run.mapError context = .ok value ↔ run = .ok value := by
  cases run <;> simp [Outcome.mapError]

theorem prepareArithmetic_eq_ok {k : Nat} {bound : BoundStage} {stage : StageArithmetic}
    (h : prepareArithmetic k bound = .ok stage) :
    bound.Prepares stage ∧ stage.perChannel = false ∧ stage.channelLength = 1 := by
  unfold prepareArithmetic at h
  cases htransform : bound.transform with
  | cast =>
      simp only [htransform, bind_ok_iff, exists_unit, require_eq_ok, pure_eq,
        Outcome.ok.injEq] at h
      obtain ⟨htypes, rfl⟩ := h
      refine ⟨⟨htransform.symm, rfl, rfl, rfl, ?_, fun _ => rfl, by simp, by simp⟩, rfl, rfl⟩
      rcases htypes with ⟨hin, hout, -⟩ | ⟨hin, hout, -⟩
      · exact .inl ⟨hin, hout⟩
      · exact .inr ⟨hin, hout⟩
  | quantize =>
      simp only [htransform, bind_ok_iff, exists_unit, require_eq_ok, mapError_eq_ok, pure_eq,
        Outcome.ok.injEq] at h
      obtain ⟨⟨hin, hout, -⟩, scale, hscale, _, -, -, rfl⟩ := h
      exact ⟨⟨htransform.symm, rfl, rfl, rfl, ⟨hin, hout⟩, by simp, fun _ => ⟨hscale, rfl⟩,
        by simp⟩, rfl, rfl⟩
  | dequantize =>
      simp only [htransform, bind_ok_iff, exists_unit, require_eq_ok, mapError_eq_ok, pure_eq,
        Outcome.ok.injEq] at h
      obtain ⟨⟨hin, hout, -⟩, scale, hscale, zeroPoint, hzero, rfl⟩ := h
      exact ⟨⟨htransform.symm, rfl, rfl, rfl, ⟨hin, hout⟩, by simp, by simp,
        fun _ => ⟨hscale, hzero⟩⟩, rfl, rfl⟩

/-- A prepared stage has a channel exactly when the bound one does. -/
theorem prepareStage_eq_ok {plan : TypedBoundPlan} {k : Nat} {bound : BoundStage}
    {stage : StageArithmetic} (h : prepareStage plan k bound = .ok stage) :
    bound.Prepares stage ∧
      (bound.channel = none → stage.perChannel = false ∧ stage.channelLength = 1 ∧
        stage.scale.length ≤ 1 ∧ stage.zeroPoint.length ≤ 1) ∧
      (∀ channel, bound.channel = some channel → stage.perChannel = true ∧ stage.scale ≠ [] ∧
        (stage.zeroPoint.length ≤ 1 ∨ stage.zeroPoint.length = stage.scale.length) ∧
        stage.channelLength = stage.scale.length ∧
        (stage.channelIsDim, stage.channelDim) = channelDimension plan channel) := by
  simp only [prepareStage, bind_ok_iff] at h
  obtain ⟨base, hbase, hrun⟩ := h
  obtain ⟨hprepares, hflag, hlength⟩ := prepareArithmetic_eq_ok hbase
  cases hchannel : bound.channel with
  | none =>
      simp only [hchannel, bind_ok_iff, exists_unit, require_eq_ok, pure_eq,
        Outcome.ok.injEq] at hrun
      obtain ⟨hsizes, rfl⟩ := hrun
      exact ⟨hprepares, fun _ => ⟨hflag, hlength, hsizes⟩, by simp⟩
  | some channel =>
      simp only [hchannel, bind_ok_iff, exists_unit, require_eq_ok, pure_eq,
        Outcome.ok.injEq] at hrun
      obtain ⟨hscale, hzero, rfl⟩ := hrun
      refine ⟨⟨hprepares.transform, hprepares.policy, hprepares.input, hprepares.output,
        hprepares.typed, hprepares.castScale, hprepares.quantize, hprepares.dequantize⟩,
        by simp, fun channel' heq => ?_⟩
      cases heq
      exact ⟨rfl, hscale, hzero, rfl, rfl⟩

/-- The counts of a prepared stage's parameters. -/
theorem BoundStage.Prepares.sound {declared : ValueStage} {bound : BoundStage}
    {stage : StageArithmetic} {plan : TypedBoundPlan} {k : Nat} (hbind : declared.BindsTo bound)
    (h : prepareStage plan k bound = .ok stage) : stage.Sound := by
  obtain ⟨hprepares, hbare, hchannel⟩ := prepareStage_eq_ok h
  have hscale : ∀ {scales : List Nat}, readScales bound.scale = .ok scales → 1 ≤ scales.length := by
    intro scales hread
    obtain ⟨param, hparam, hlength⟩ := length_readScales hread
    have hpos := (hparam ▸ hbind.scale : declared.scale.BindsTo declared bound.shape
      (some param)).length_pos
      hbind.shape
    omega
  have hzero : ∀ {values : List Int}, readZeroPoints bound.zeroPoint = .ok values →
      1 ≤ values.length := by
    intro values hread
    rcases length_readZeroPoints hread with ⟨-, rfl⟩ | ⟨param, hparam, hlength⟩
    · decide
    · have hpos := (hparam ▸ hbind.zeroPoint :
        declared.zeroPoint.BindsTo declared bound.shape (some param)).length_pos hbind.shape
      omega
  have hone : stage.perChannel = false → stage.channelLength = 1 := by
    intro hflag
    cases hc : bound.channel with
    | none => exact (hbare hc).2.1
    | some channel =>
        rw [(hchannel channel hc).1] at hflag
        cases hflag
  have hscales : 1 ≤ stage.scale.length → (stage.scale.length : Int) = stage.channelLength := by
    intro hpos
    cases hc : bound.channel with
    | none =>
        obtain ⟨-, hlength, hle, -⟩ := hbare hc
        omega
    | some channel => exact (hchannel channel hc).2.2.2.1.symm
  refine ⟨hprepares.typed, ?_, hone⟩
  unfold StageArithmetic.Sized
  cases htransform : stage.transform with
  | cast =>
      have hnil := hprepares.castScale htransform
      cases hc : bound.channel with
      | none => exact (hbare hc).1
      | some channel => exact absurd hnil (hchannel channel hc).2.1
  | quantize =>
      obtain ⟨hread, hinv⟩ := hprepares.quantize htransform
      simp only [hinv, List.length_map]
      exact hscales (hscale hread)
  | dequantize =>
      obtain ⟨hread, hread'⟩ := hprepares.dequantize htransform
      have hpos := hzero hread'
      have hlength := hscales (hscale hread)
      refine ⟨hlength, ?_⟩
      cases hc : bound.channel with
      | none =>
          have := (hbare hc).2.2.2
          omega
      | some channel =>
          have := (hchannel channel hc).2.2.1
          omega

/-! ### Bound layouts -/

/-- What `bind` guarantees of the pads and of the source strides of a layout. -/
structure BoundPlan.Regioned (bound : BoundPlan) : Prop where
  reads : ∀ axis ∈ bound.walkAxes, 0 ≤ axis.srcStride
  regions : ∀ region ∈ bound.padRegions, ∃ axis, bound.walkAxes[region.axis]? = some axis ∧
    axis.lo = region.lo ∧ axis.hi = region.hi
  bare : ∀ (k : Nat) (axis : WalkAxis), bound.walkAxes[k]? = some axis →
    (∀ region ∈ bound.padRegions, region.axis ≠ k) → axis.lo = 0 ∧ axis.hi = 0

theorem bind_laid {plan : RelocationPlan} {map : SymbolMap} {override : Strategy}
    {bound : BoundPlan} (h : bind plan map override = .ok bound) :
    bound.Laid ∧ bound.Regioned := by
  rw [bind_eq, bind_ok_iff] at h
  obtain ⟨axes, haxes, hassemble⟩ := h
  have hsound := concreteAxes_sound haxes
  obtain ⟨-, -, hne, -⟩ := concreteAxes_attached haxes
  have hcoalesced := coalesce_sound hsound
  have hwalk := walkAxes_of_assembleBound hsound hassemble
  refine ⟨laid_of_assembleBound hsound hne hassemble, ?_, ?_, ?_⟩
  · intro axis haxis
    rw [hwalk] at haxis
    obtain ⟨entry, hentry, rfl⟩ := List.mem_map.mp haxis
    exact (hcoalesced _ (List.mem_map_of_mem hentry)).src
  · intro region hregion
    rw [mem_padRegions_of_assembleBound hassemble] at hregion
    obtain ⟨entry, hentry, -, hregion⟩ := hregion
    refine ⟨entry.1.walk, by rw [hwalk, List.getElem?_map, hentry]; rfl, ?_⟩
    rw [hregion]
    exact ⟨rfl, rfl⟩
  · intro k axis haxis hno
    rw [hwalk, List.getElem?_map, Option.map_eq_some_iff] at haxis
    obtain ⟨entry, hentry, rfl⟩ := haxis
    refine (hcoalesced entry.1 (List.mem_map_of_mem (List.mem_of_getElem? hentry))).bare ?_
    by_contra hpadded
    rw [Bool.not_eq_false] at hpadded
    exact hno (entry.1.region k)
      ((mem_padRegions_of_assembleBound hassemble).mpr ⟨entry, hentry, hpadded, rfl⟩) rfl

/-! ### Bound typed plans -/

theorem checkedProduct_eq_ok {text : String} {extents : List Int} {product result : Int}
    (h : checkedProduct text extents product = .ok result) : result = product * extents.prod := by
  induction extents generalizing product with
  | nil =>
      cases h
      simp
  | cons extent rest ih =>
      simp only [checkedProduct, bind_ok_iff, checkedOr_eq_ok] at h
      obtain ⟨_, ⟨-, rfl⟩, hrest⟩ := h
      rw [ih hrest, List.prod_cons, mul_assoc]

theorem concreteDenseDescriptor_eq_ok {desc : TensorDesc} {symbols extents : List Int}
    {what : String} (h : concreteDenseDescriptor desc symbols what = .ok extents) :
    extents ≠ [] ∧ ∀ extent ∈ extents, 1 ≤ extent := by
  simp only [concreteDenseDescriptor, bind_ok_iff, exists_unit, require_eq_ok] at h
  obtain ⟨extents', -, hne, hpos, _, -, -, hrest⟩ := h
  by_cases hstrides : desc.strides = []
  · rw [if_pos hstrides] at hrest
    cases hrest
    exact ⟨hne, hpos⟩
  · simp only [if_neg hstrides, bind_ok_iff, exists_unit, pure_eq, Outcome.ok.injEq] at hrest
    obtain ⟨_, -, -, rfl⟩ := hrest
    exact ⟨hne, hpos⟩

/-- The fields of a bound typed plan. -/
structure TypedRelocationPlan.BindsTo (plan : TypedRelocationPlan) (map : SymbolMap)
    (bound : TypedBoundPlan) : Prop where
  layout : ∃ layout, bind plan.layout map .auto = .ok layout ∧
    bound.layout = { layout with typed := true }
  symbols : resolveSymbols plan.layout.symbols map = .ok bound.symbols
  extents : bound.resultExtents ≠ [] ∧ ∀ extent ∈ bound.resultExtents, 1 ≤ extent
  sourceType : bound.sourceType = plan.source.elementType
  resultType : bound.resultType = plan.result.elementType
  stages : List.Forall₂ ValueStage.BindsTo plan.stages bound.stages
  fills : bound.fills = plan.fills
  cuts : ∃ (axisExtents : List Int) (pads : List (Int × Nat)),
    padFootprint plan.fills bound.symbols plan.layout.padFill (axisExtents.map fun _ => (0, 0)) =
      .ok pads ∧
    mapEach (List.range (plan.stages.length + 1)) (bindCut plan (axisExtents.zip pads)) =
      .ok bound.cuts
  last : ∃ last, bound.cuts[plan.stages.length]? = some last ∧
    last.bytes = bound.layout.totalBytes ∧ last.elements = bound.resultExtents.prod

theorem bindTyped_eq_ok {plan : TypedRelocationPlan} {map : SymbolMap}
    {parameters : ParameterMap} {bound : TypedBoundPlan}
    (h : bindTyped plan map parameters = .ok bound) : plan.BindsTo map bound := by
  simp only [bindTyped, bind_ok_iff, exists_unit, Prod.exists, require_eq_ok, mapError_eq_ok,
    fetch_eq_ok, pure_eq, Outcome.ok.injEq] at h
  obtain ⟨layout, hlayout, symbols, hsymbols, sourceExtents, -, resultExtents, hresult, -, stages,
    _, hstages, -, _, -, _, -, axisExtents, -, pads, hpads, cuts, hcuts, last, hlast, hbytes,
    elements, helements, hcount, rfl⟩ := h
  have hprod := checkedProduct_eq_ok helements
  rw [one_mul] at hprod
  exact ⟨⟨layout, hlayout, rfl⟩, hsymbols, concreteDenseDescriptor_eq_ok hresult, rfl, rfl,
    bindStages_eq_ok hstages, rfl, ⟨axisExtents, pads, hpads, hcuts⟩, ⟨last, hlast, hbytes,
      hcount.symm.trans hprod⟩⟩

/-! ### Footprints -/

theorem padFootprint_stage {fills : List TypedFill} {symbols : List Int} {padFills : List PadFill}
    {pads pads' : List (Int × Nat)} (h : padFootprint fills symbols padFills pads = .ok pads')
    {boundary : Nat} (hpads : ∀ pad ∈ pads, pad.2 ≤ boundary)
    (hfills : ∀ fill ∈ fills, fill.stage ≤ boundary) : ∀ pad ∈ pads', pad.2 ≤ boundary := by
  induction padFills generalizing pads with
  | nil =>
      cases h
      exact hpads
  | cons pad rest ih =>
      simp only [padFootprint, bind_ok_iff, exists_unit, require_eq_ok, fetch_eq_ok] at h
      obtain ⟨-, lo, -, hi, -, total, -, -, old, hold, hrest⟩ := h
      refine ih hrest fun entry hentry => ?_
      rcases List.mem_or_eq_of_mem_set hentry with hmem | rfl
      · exact hpads entry hmem
      · cases hfind : fills.reverse.find? fun fill => fill.dstAxis = pad.dstAxis with
        | none => exact hpads old (List.mem_of_getElem? hold)
        | some fill =>
            exact hfills fill (List.mem_reverse.mp (List.mem_of_find?_eq_some hfind))

theorem cutElements_congr {boundary boundary' : Nat} {axes : List (Int × (Int × Nat))}
    (h : ∀ axis ∈ axes, axis.2.2 ≤ boundary ∧ axis.2.2 ≤ boundary') (elements : Int) :
    cutElements boundary axes elements = cutElements boundary' axes elements := by
  induction axes generalizing elements with
  | nil => rfl
  | cons axis rest ih =>
      obtain ⟨extent, width, stage⟩ := axis
      rw [List.forall_mem_cons] at h
      simp only [cutElements, h.1, and_true, ih h.2]

/-- Once all pads have entered, a boundary has as many elements as the result. -/
theorem TypedRelocationPlan.BindsTo.settled {plan : TypedRelocationPlan} {map : SymbolMap}
    {bound : TypedBoundPlan} (h : plan.BindsTo map bound) {boundary : Nat}
    (hle : boundary ≤ plan.stages.length) (hfills : ∀ fill ∈ plan.fills, fill.stage ≤ boundary)
    {type : ElementType}
    (htype : (entryType plan.source.elementType plan.stages boundary : Outcome BindError _) =
      .ok type) :
    FitsI64 (bound.resultExtents.prod * byteWidth type) ∧ byteWidth type ≠ 0 := by
  obtain ⟨axisExtents, pads, hpads, hcuts⟩ := h.cuts
  obtain ⟨last, hlast, -, hlastElements⟩ := h.last
  have hcut : ∀ {b : Nat}, b ≤ plan.stages.length → ∃ cut, bound.cuts[b]? = some cut ∧
      bindCut plan (axisExtents.zip pads) b = .ok cut := by
    intro b hb
    have hforall := mapEach_eq_ok.mp hcuts
    have hlt : b < (List.range (plan.stages.length + 1)).length := by
      rw [List.length_range]
      omega
    have hlt' : b < bound.cuts.length := hforall.length_eq ▸ hlt
    have hget := hforall.get hlt hlt'
    simp only [List.get_eq_getElem, List.getElem_range] at hget
    exact ⟨_, List.getElem?_eq_getElem hlt', hget⟩
  have hstage : ∀ b, boundary ≤ b → ∀ axis ∈ axisExtents.zip pads, axis.2.2 ≤ b := by
    intro b hb axis haxis
    have hmem := (List.of_mem_zip (show (axis.1, axis.2) ∈ _ from haxis)).2
    refine padFootprint_stage hpads (fun pad hpad => ?_) (fun fill hfill => ?_) _ hmem
    · obtain ⟨_, -, rfl⟩ := List.mem_map.mp hpad
      exact Nat.zero_le b
    · exact (hfills fill hfill).trans hb
  obtain ⟨cut, -, hrun⟩ := hcut hle
  obtain ⟨last', hlast', hrun'⟩ := hcut (le_refl plan.stages.length)
  cases hlast.symm.trans hlast'
  simp only [bindCut, bind_ok_iff, exists_unit, require_eq_ok, checkedOr_eq_ok, pure_eq,
    Outcome.ok.injEq] at hrun hrun'
  obtain ⟨_, htype', elements, helements, hwidth, _, ⟨hfits, rfl⟩, rfl⟩ := hrun
  obtain ⟨_, -, elements', helements', -, _, -, rfl⟩ := hrun'
  cases htype.symm.trans htype'
  have hsame := @cutElements_congr boundary plan.stages.length _
    (fun axis haxis => ⟨hstage _ (le_refl _) axis haxis, hstage _ hle axis haxis⟩) 1
  rw [hsame, helements'] at helements
  cases helements
  rw [← hlastElements]
  exact ⟨hfits, hwidth⟩

/-! ### The chain of types -/

theorem typeAt_succ {type : ElementType} {stages : List ValueStage} {k : Nat} {stage : ValueStage}
    (h : stages[k]? = some stage) : typeAt type stages (k + 1) = stage.output.type := by
  simp [typeAt, h]

theorem TypeChain.input {type last : ElementType} {stages : List ValueStage}
    (h : TypeChain type stages last) {k : Nat} {stage : ValueStage} (hk : stages[k]? = some stage) :
    stage.input.type = typeAt type stages k := by
  induction stages generalizing type k with
  | nil => simp at hk
  | cons first rest ih =>
      obtain ⟨hfirst, hrest⟩ := h
      cases k with
      | zero =>
          obtain rfl : first = stage := by simpa using hk
          exact hfirst
      | succ k =>
          have hk' : rest[k]? = some stage := hk
          rw [ih hrest hk']
          cases k with
          | zero => simp [typeAt]
          | succ k =>
              have hlt : k < rest.length := by
                have := (List.getElem?_eq_some_iff.mp hk').1
                omega
              simp [typeAt, List.getElem?_eq_getElem hlt]

theorem TypeChain.last {type last : ElementType} {stages : List ValueStage}
    (h : TypeChain type stages last) : typeAt type stages stages.length = last := by
  induction stages generalizing type with
  | nil => exact h
  | cons first rest ih =>
      rw [← ih h.2]
      cases rest with
      | nil => simp [typeAt]
      | cons second rest => simp [typeAt]

/-- A type with a typed array. -/
def ElementType.Buffered (type : ElementType) : Prop :=
  isFloatWidth type 32 ∨ isFloatWidth type 16 ∨ isBFloat16 type ∨ isInt8 type

theorem StageArithmetic.Typed.buffered {stage : StageArithmetic} (h : stage.Typed) :
    stage.input.Buffered ∧ stage.output.Buffered := by
  unfold StageArithmetic.Typed at h
  unfold ElementType.Buffered
  split at h
  · rcases h with ⟨hin, hout⟩ | ⟨hin, hout⟩
    · exact ⟨.inl hin, .inr (by rcases hout with h | h <;> simp [h])⟩
    · exact ⟨.inr (by rcases hin with h | h <;> simp [h]), .inl hout⟩
  · exact ⟨.inl h.1, .inr (.inr (.inr h.2))⟩
  · exact ⟨.inr (.inr (.inr h.1)), .inl h.2⟩

/-! ### Prepared programs -/

/-- The type of the values at a boundary of a plan. -/
def TypedRelocationPlan.boundaryType (plan : TypedRelocationPlan) (boundary : Nat) : ElementType :=
  typeAt plan.source.elementType plan.stages boundary

/-- A program prepared from a bound plan, against the plan it was decoded from. -/
structure Program.Sound (plan : TypedRelocationPlan) (program : Program) : Prop where
  length : program.stages.length = plan.stages.length
  stages_ne : program.stages ≠ []
  each : ∀ (k : Nat) (stage : StageArithmetic), program.stages[k]? = some stage →
    ∃ (declared : ValueStage) (bound : BoundStage), plan.stages[k]? = some declared ∧
      program.plan.stages[k]? = some bound ∧ declared.Valid ∧ declared.BindsTo bound ∧
      prepareStage program.plan k bound = .ok stage
  types : ∀ k ≤ program.stages.length,
    program.typeAt k = .ok (plan.boundaryType k)
  inputs : ∀ (k : Nat) (stage : StageArithmetic), program.stages[k]? = some stage →
    stage.input = plan.boundaryType k ∧
      stage.output = plan.boundaryType (k + 1)
  last : plan.boundaryType program.stages.length =
    plan.result.elementType
  extents : program.plan.resultExtents ≠ [] ∧ ∀ extent ∈ program.plan.resultExtents, 1 ≤ extent
  strides : program.resultStrides = rowMajorStrides program.plan.resultExtents
  laid : program.plan.layout.Laid
  regioned : program.plan.layout.Regioned
  elements : program.resultElements = program.plan.resultExtents.prod ∧
    program.resultElements = (program.plan.layout.walkAxes.map WalkAxis.padded).prod
  fills : program.plan.fills = plan.fills
  wires : ∀ k ≤ program.stages.length, program.padsSettledBy k = true →
    FitsI64 (program.resultElements * byteWidth (plan.boundaryType k)) ∧
      byteWidth (plan.boundaryType k) ≠ 0

variable {data : List UInt8} {plan : TypedRelocationPlan} {map : SymbolMap}
  {parameters : ParameterMap} {bound : TypedBoundPlan} {program : Program}

theorem prepareProgram_eq_ok (h : prepareProgram bound = .ok program) :
    program.plan = bound ∧ program.stages.length = bound.stages.length ∧
      (∀ (k : Nat) (stage : StageArithmetic), program.stages[k]? = some stage →
        ∃ boundStage, bound.stages[k]? = some boundStage ∧
          prepareStage bound k boundStage = .ok stage) ∧
      program.resultStrides = rowMajorStrides bound.resultExtents ∧
      program.resultElements = bound.resultExtents.prod := by
  simp only [prepareProgram, bind_ok_iff, pure_eq, Outcome.ok.injEq] at h
  obtain ⟨stages, hstages, rfl⟩ := h
  have hforall := mapEach_eq_ok.mp hstages
  refine ⟨rfl, by rw [← hforall.length_eq, List.length_zipIdx], fun k stage hk => ?_, rfl, rfl⟩
  obtain ⟨hlt, rfl⟩ := List.getElem?_eq_some_iff.mp hk
  have hlt' : k < bound.stages.zipIdx.length := hforall.length_eq.symm ▸ hlt
  have hget := hforall.get hlt' hlt
  simp only [List.get_eq_getElem, List.getElem_zipIdx, Nat.zero_add] at hget
  exact ⟨_, List.getElem?_eq_getElem (by simpa using hlt'), hget⟩

theorem Program.sound (hdecode : decodeTypedPlan data = .ok plan)
    (hbind : bindTyped plan map parameters = .ok bound)
    (hprepare : prepareProgram bound = .ok program) :
    program.Sound plan := by
  have hvalid := (decodeTypedPlan_eq_ok.mp hdecode).1.valid
  have hbound := bindTyped_eq_ok hbind
  obtain ⟨rfl, hlength, heach, hstrides, helements⟩ := prepareProgram_eq_ok hprepare
  obtain ⟨layout, hlayout, hlayoutEq⟩ := hbound.layout
  obtain ⟨hlaid, hregioned⟩ := bind_laid hlayout
  have hcount : program.stages.length = plan.stages.length :=
    hlength.trans hbound.stages.length_eq.symm
  have heach' : ∀ (k : Nat) (stage : StageArithmetic), program.stages[k]? = some stage →
      ∃ (declared : ValueStage) (boundStage : BoundStage), plan.stages[k]? = some declared ∧
        program.plan.stages[k]? = some boundStage ∧ declared.Valid ∧
        declared.BindsTo boundStage ∧ prepareStage program.plan k boundStage = .ok stage := by
    intro k stage hk
    obtain ⟨boundStage, hboundStage, hrun⟩ := heach k stage hk
    obtain ⟨hlt, rfl⟩ := List.getElem?_eq_some_iff.mp hboundStage
    have hlt' : k < plan.stages.length := hbound.stages.length_eq.symm ▸ hlt
    exact ⟨_, _, List.getElem?_eq_getElem hlt', hboundStage,
      hvalid.stages _ (List.getElem_mem hlt'), hbound.stages.get hlt' hlt, hrun⟩
  have hinputs : ∀ (k : Nat) (stage : StageArithmetic), program.stages[k]? = some stage →
      stage.input = plan.boundaryType k ∧
        stage.output = plan.boundaryType (k + 1) := by
    intro k stage hk
    obtain ⟨declared, boundStage, hdeclared, -, -, hbinds, hrun⟩ := heach' k stage hk
    have hprepares := (prepareStage_eq_ok hrun).1
    rw [hprepares.input, hprepares.output, hbinds.input, hbinds.output,
      TypedRelocationPlan.boundaryType, TypedRelocationPlan.boundaryType, typeAt_succ hdeclared]
    exact ⟨hvalid.chain.input hdeclared, rfl⟩
  refine ⟨hcount, ?_, heach', fun k hk => ?_, hinputs, by rw [hcount]; exact hvalid.chain.last,
    hbound.extents, hstrides, ?_, ?_, ⟨helements, ?_⟩, hbound.fills, fun k hk hsettled => ?_⟩
  · intro hnil
    rw [hnil, List.length_nil] at hcount
    exact hvalid.stages_ne (List.length_eq_zero_iff.mp hcount.symm)
  · unfold Program.typeAt
    by_cases hzero : k = 0
    · rw [if_pos hzero, hzero, hbound.sourceType]
      rfl
    · have hlt : k - 1 < program.stages.length := by omega
      rw [if_neg hzero, fetch_of_lt hlt, ok_bind, pure_eq,
        (hinputs (k - 1) _ (List.getElem?_eq_getElem hlt)).2, Nat.sub_add_cancel (by omega)]
  · rw [hlayoutEq]
    exact ⟨hlaid.size, hlaid.rank, hlaid.axes, hlaid.extents, hlaid.strides, hlaid.outer,
      hlaid.padded, hlaid.total, hlaid.fits⟩
  · rw [hlayoutEq]
    exact ⟨hregioned.reads, hregioned.regions, hregioned.bare⟩
  · obtain ⟨last, hlast, hbytes, hlastElements⟩ := hbound.last
    obtain ⟨axisExtents, pads, -, hcuts⟩ := hbound.cuts
    have hforall := mapEach_eq_ok.mp hcuts
    obtain ⟨hlt, rfl⟩ := List.getElem?_eq_some_iff.mp hlast
    have hget := hforall.get (i := plan.stages.length) (by simp) hlt
    simp only [List.get_eq_getElem, List.getElem_range, bindCut, bind_ok_iff, exists_unit,
      require_eq_ok, checkedOr_eq_ok, pure_eq, Outcome.ok.injEq] at hget
    obtain ⟨type, htype, count, -, hwidth, _, ⟨-, rfl⟩, hcut⟩ := hget
    rw [entryType_eq (le_refl _), Outcome.ok.injEq, hvalid.chain.last] at htype
    subst htype
    obtain ⟨_, _, -, -, -, hcoalesced⟩ := bind_coalesced hlayout
    have hsize := hcoalesced.size.2
    rw [hvalid.layout_result] at hsize
    have hsame : byteWidth plan.result.elementType = layout.elementSize := by
      unfold byteWidth
      have hpos := hlaid.size
      rw [if_neg (by omega)]
      omega
    rw [← hcut] at hbytes hlastElements
    simp only at hbytes hlastElements
    rw [helements, ← hlastElements, hlayoutEq]
    rw [hlayoutEq] at hbytes
    have htotal := hlaid.total
    rw [hsame] at hbytes
    have hpos : (0 : Int) < layout.elementSize := by exact_mod_cast hlaid.size
    have heq : count * layout.elementSize =
        (layout.walkAxes.map WalkAxis.padded).prod * layout.elementSize := hbytes.trans htotal
    exact mul_right_cancel₀ hpos.ne' heq
  · rw [hcount] at hk
    rw [helements]
    refine hbound.settled hk (fun fill hfill => ?_) (entryType_eq hk)
    rw [Program.padsSettledBy, List.all_eq_true, hbound.fills] at hsettled
    simpa using hsettled fill hfill

end SymReloc
