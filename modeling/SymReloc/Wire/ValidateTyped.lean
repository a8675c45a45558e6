import SymReloc.Runtime.TypedValue
import SymReloc.Wire.DecodeTyped

/-!
# Cross-checks of typed plans

`validateTyped` runs after a typed plan was read: the type chain, the signature
and parameters of each stage, the declarations shared between stages, and the
fills against the pads of the layout.  `TypedRelocationPlan.Valid` says the same
without offsets and loops, and `decodeTypedPlan_eq_ok` puts reader and checks
together.
-/

namespace SymReloc

open Outcome

/-! ### Parameters -/

/-- A parameter's rank; an absent one counts as rank 0. -/
def StageParam.rank : StageParam → Nat
  | .none => 0
  | .inline rank _ _ => rank
  | .binding _ bindingExtents _ => bindingExtents.length

/-- The declared element type, the default of the record for an absent one. -/
def StageParam.elementType : StageParam → ElementType
  | .none => ⟨.float, 0⟩
  | .inline _ elementType _ => elementType
  | .binding _ _ elementType => elementType

def StageParam.inlineBits : StageParam → List Nat
  | .inline _ _ inlineBits => inlineBits
  | _ => []

def StageParam.bindingName? : StageParam → Option Name
  | .binding bindingName _ _ => some bindingName
  | _ => .none

/-- The binding declarations of a stage, in the order they are compared. -/
def ValueStage.bindings (stage : ValueStage) : List StageParam :=
  [stage.scale, stage.zeroPoint].filter (·.bindingName?.isSome)

/-- `constantOf`: the value of a stream that is one constant. -/
def constantOf : ExprStream → Option Int
  | [.pushConst value] => some value
  | _ => none

/-- Whether the inline values of a parameter fit a channel extent known before
    binding. -/
def StageParam.fitsExtent (extent? : Option Int) : StageParam → Prop
  | .inline 1 _ inlineBits => ∀ extent ∈ extent?, (inlineBits.length : Int) = extent
  | _ => True

instance (extent? : Option Int) : ∀ param : StageParam, Decidable (param.fitsExtent extent?)
  | .inline 1 _ inlineBits =>
      match extent? with
      | some extent => decidable_of_iff ((inlineBits.length : Int) = extent) (by
          simp [StageParam.fitsExtent])
      | none => isTrue (by simp [StageParam.fitsExtent])
  | .none => isTrue trivial
  | .binding .. => isTrue trivial
  | .inline 0 .. => isTrue trivial
  | .inline (_ + 2) .. => isTrue trivial

/-- The pairs of types a cast may have, each with its policy. -/
def ValueStage.castSignature (stage : ValueStage) : Prop :=
  ((isFloatWidth stage.input.type 32 ∧
        (isFloatWidth stage.output.type 16 ∨ isBFloat16 stage.output.type) ∧
        stage.policy = .ieeeRne) ∨
      ((isFloatWidth stage.input.type 16 ∨ isBFloat16 stage.input.type) ∧
        isFloatWidth stage.output.type 32 ∧ stage.policy = .exact)) ∧
    stage.input.signedness = .signless ∧ stage.output.signedness = .signless

def ValueStage.quantizeSignature (stage : ValueStage) : Prop :=
  isFloatWidth stage.input.type 32 ∧ stage.input.signedness = .signless ∧
    isInt8 stage.output.type ∧ stage.output.signedness = .signed ∧ stage.policy = .symmetricRne

def ValueStage.dequantizeSignature (stage : ValueStage) : Prop :=
  isInt8 stage.input.type ∧ stage.input.signedness = .signed ∧
    isFloatWidth stage.output.type 32 ∧ stage.output.signedness = .signless ∧ stage.policy = .affine

instance (stage : ValueStage) : Decidable stage.castSignature := by
  unfold ValueStage.castSignature; infer_instance
instance (stage : ValueStage) : Decidable stage.quantizeSignature := by
  unfold ValueStage.quantizeSignature; infer_instance
instance (stage : ValueStage) : Decidable stage.dequantizeSignature := by
  unfold ValueStage.dequantizeSignature; infer_instance

/-! ### One stage -/

def validateCast (position : Nat) (stage : ValueStage) : Outcome DecodeError Unit := do
  require stage.castSignature ⟨position, "invalid cast signature (f32 -> f16/bf16 " ++
    "ieee_rne or f16/bf16 -> f32 exact, signless)"⟩
  require (stage.scale = .none ∧ stage.zeroPoint = .none ∧ stage.axis = -1 ∧ stage.channel = none)
    ⟨position, "cast stages carry no parameters"⟩

/-- The rank, axis and channel map of a quantize or dequantize stage. -/
def validateAxis (position : Nat) (stage : ValueStage) : Outcome DecodeError Unit :=
  if stage.axis = -1 then
    require (stage.scale.rank = 0 ∧ stage.zeroPoint.rank = 0 ∧ stage.channel = none)
      ⟨position, "per-tensor stage requires rank-0 parameters and no channel map"⟩
  else do
    require (0 ≤ stage.axis ∧ stage.axis.toNat < stage.shape.length)
      ⟨position, "axis out of range for the stage shape"⟩
    require (stage.scale.rank = 1) ⟨position, "per-channel stage requires a rank-1 scale"⟩
    require (stage.channel ≠ none) ⟨position, "per-channel stage requires a channel map"⟩
    let extent ← fetch stage.shape stage.axis.toNat
    forEach [stage.scale, stage.zeroPoint] fun param =>
      require (param.fitsExtent (constantOf extent))
        ⟨position, "inline parameter length must equal the channel extent"⟩

/-- The inline values and bindings of a quantize or dequantize stage. -/
def validateValues (position : Nat) (stage : ValueStage) : Outcome DecodeError Unit := do
  forEach stage.scale.inlineBits fun bits =>
    require (isFinitePositive (bits % 2 ^ 32))
      ⟨position, "inline scale must be finite and strictly positive"⟩
  forEach stage.zeroPoint.inlineBits fun bits => do
    let value := signExtendBits bits stage.zeroPoint.elementType.bitwidth
    require (-128 ≤ value ∧ value ≤ 127) ⟨position, "inline zero point out of [-128, 127]"⟩
    require (stage.policy = .symmetricRne → value = 0)
      ⟨position, "symmetric_rne admits only the constant zero point 0"⟩
  require (stage.policy = .symmetricRne → stage.zeroPoint.bindingName? = none)
    ⟨position, "symmetric_rne rejects a zero-point binding"⟩
  require (stage.scale.bindingName? = none ∨
    stage.scale.bindingName? ≠ stage.zeroPoint.bindingName?)
    ⟨position, "runtime parameters must use distinct binding names"⟩

/-- The checks of a quantize or dequantize stage before declarations are compared. -/
def validateParameters (position : Nat) (stage : ValueStage) : Outcome DecodeError Unit := do
  require (stage.scale ≠ .none) ⟨position, "quantize/dequantize stages require a scale"⟩
  require (isFloatWidth stage.scale.elementType 32) ⟨position, "scale element type must be f32"⟩
  require (stage.zeroPoint = .none ∨ stage.zeroPoint.elementType.kind = .integer)
    ⟨position, "zero_point element type must be an integer"⟩
  require (stage.zeroPoint.bindingName? = none ∨ stage.zeroPoint.elementType.bitwidth = 32)
    ⟨position, "zero_point bindings must declare int 32"⟩
  validateAxis position stage
  validateValues position stage

/-- Compare the bindings of a stage with those declared so far. -/
def validateDeclarations (position : Nat) :
    List StageParam → List StageParam → Outcome DecodeError (List StageParam)
  | [], declared => .ok declared
  | param :: rest, declared => do
      forEach declared fun seen =>
        require (seen.bindingName? ≠ param.bindingName? ∨ seen = param)
          ⟨position, "conflicting parameter declaration for binding '" ++
            nameText (param.bindingName?.getD []) ++ "'"⟩
      validateDeclarations position rest (declared ++ [param])

/-- One stage; a cast declares nothing. -/
def validateStage (position : Nat) (stage : ValueStage) (declared : List StageParam) :
    Outcome DecodeError (List StageParam) :=
  match stage.transform with
  | .cast => do
      validateCast position stage
      pure declared
  | .quantize => do
      require stage.quantizeSignature ⟨position,
        "invalid quantize signature (f32 -> signed int 8, symmetric_rne)"⟩
      validateParameters position stage
      validateDeclarations position stage.bindings declared
  | .dequantize => do
      require stage.dequantizeSignature ⟨position,
        "invalid dequantize signature (signed int 8 -> f32, affine)"⟩
      validateParameters position stage
      validateDeclarations position stage.bindings declared

def validateStages : List (Nat × ValueStage) → List StageParam →
    Outcome DecodeError (List StageParam)
  | [], declared => .ok declared
  | (position, stage) :: rest, declared => do
      let declared ← validateStage position stage declared
      validateStages rest declared

/-! ### Type chain -/

/-- The links between consecutive stages, from a stage's offset and output type;
    the result is the last stage's. -/
def validateLinks : Nat → ElementType → List (Nat × ValueStage) →
    Outcome DecodeError (Nat × ElementType)
  | lastAt, type, [] => .ok (lastAt, type)
  | _, type, (position, stage) :: rest => do
      require (stage.input.type = type)
        ⟨position, "stage input type must equal the previous stage's output type"⟩
      validateLinks position stage.output.type rest

def validateChain (stagesAt : Nat) (sourceType resultType : ElementType) :
    List (Nat × ValueStage) → Outcome DecodeError Unit
  | [] => .error ⟨stagesAt, "typed plan needs at least one stage"⟩
  | (firstAt, first) :: rest => do
      require (first.input.type = sourceType)
        ⟨firstAt, "stage 0 input type must equal the source type"⟩
      let (lastAt, lastType) ← validateLinks firstAt first.output.type rest
      require (lastType = resultType)
        ⟨lastAt, "last stage output type must equal the result type"⟩

/-! ### Fills -/

/-- `isNaNBits`. -/
def isNaNBits (bits : Nat) (type : ElementType) : Bool :=
  if isBFloat16 type then
    decide (bits / 2 ^ 7 % 2 ^ 8 = 0xff ∧ bits % 2 ^ 7 ≠ 0)
  else if type.kind ≠ .float then false
  else if type.bitwidth = 32 then decide (bits / 2 ^ 23 % 2 ^ 8 = 0xff ∧ bits % 2 ^ 23 ≠ 0)
  else if type.bitwidth = 16 then decide (bits / 2 ^ 10 % 2 ^ 5 = 0x1f ∧ bits % 2 ^ 10 ≠ 0)
  else false

/-- Mark the pads of an axis as filled; the last of them is the one compared. -/
def claimPads (position axis : Nat) : List (PadFill × Bool) → Option PadFill →
    Outcome DecodeError (List (PadFill × Bool) × Option PadFill)
  | [], found => .ok ([], found)
  | (pad, hasFill) :: rest, found =>
      if pad.dstAxis = axis then do
        require (hasFill = false) ⟨position, "duplicate fill for a layout pad"⟩
        let (rest, found) ← claimPads position axis rest (some pad)
        pure ((pad, true) :: rest, found)
      else do
        let (rest, found) ← claimPads position axis rest found
        pure ((pad, hasFill) :: rest, found)

/-- Fold a constant through the stages from the one it enters at. -/
def foldStages : List ValueStage → Nat → ElementType → Option Nat
  | [], bits, _ => some bits
  | stage :: rest, bits, type => do
      let bits ← foldFill bits type stage
      foldStages rest bits stage.output.type

/-- The type of the value that enters a stage. -/
def entryType {ε : Type} (sourceType : ElementType) (stages : List ValueStage) (stage : Nat) :
    Outcome ε ElementType :=
  if stage = 0 then .ok sourceType
  else do
    let previous ← fetch stages (stage - 1)
    pure previous.output.type

/-- One fill against the pads. -/
def validateFill (sourceType resultType : ElementType) (stages : List ValueStage) (position : Nat)
    (fill : TypedFill) (pads : List (PadFill × Bool)) :
    Outcome DecodeError (List (PadFill × Bool)) := do
  let (pads, found) ← claimPads position fill.dstAxis pads none
  match found with
  | none => .error ⟨position, "fill dst_axis has no layout pad"⟩
  | some pad => do
      require (fill.stage ≤ stages.length) ⟨position, "fill stage out of range"⟩
      let entry ← entryType sourceType stages fill.stage
      require (fill.type = entry) ⟨position, "fill type must equal the type entering its stage"⟩
      require (pad.fillType = resultType)
        ⟨position, "layout pad fill type must equal the result type"⟩
      match foldStages (stages.drop fill.stage) fill.bits fill.type with
      | none => .error ⟨position,
          "fill cannot fold through a per-channel or runtime-parameter stage"⟩
      | some bits => do
          require (bits = pad.fillBits ∨
              (isNaNBits bits resultType ∧ isNaNBits pad.fillBits resultType))
            ⟨position, "fill fold mismatch with the layout's fused fill"⟩
          pure pads

def validateFills (sourceType resultType : ElementType) (stages : List ValueStage) :
    List (Nat × TypedFill) → List (PadFill × Bool) → Outcome DecodeError (List (PadFill × Bool))
  | [], pads => .ok pads
  | (position, fill) :: rest, pads => do
      let pads ← validateFill sourceType resultType stages position fill pads
      validateFills sourceType resultType stages rest pads

/-! ### All checks -/

/-- `validateTyped`. -/
def validateTyped (located : LocatedTypedPlan) : Outcome DecodeError Unit := do
  let sourceType := located.source.elementType
  let resultType := located.result.elementType
  require (located.layout.src.elementType = sourceType)
    ⟨located.layoutAt, "layout src element type must equal the source type"⟩
  require (located.layout.dst.elementType = resultType)
    ⟨located.layoutAt, "layout dst element type must equal the result type"⟩
  require (located.layout.src.extents.length = located.source.extents.length)
    ⟨located.layoutAt, "layout src rank must equal the source rank"⟩
  validateChain located.stagesAt sourceType resultType located.stages
  let _ ← validateStages located.stages []
  let pads ← validateFills sourceType resultType (located.stages.map Prod.snd) located.fills
    (located.layout.padFill.map fun pad => (pad, false))
  forEach pads fun entry =>
    require (entry.2 = true) ⟨located.fillsAt, "layout pad without a typed fill"⟩

/-! ### What the checks accept -/

/-- A quantize or dequantize stage the decoder accepts on its own. -/
structure ValueStage.ParametersValid (stage : ValueStage) : Prop where
  scale_present : stage.scale ≠ .none
  scale_type : isFloatWidth stage.scale.elementType 32
  zeroPoint_type : stage.zeroPoint = .none ∨ stage.zeroPoint.elementType.kind = .integer
  zeroPoint_binding : stage.zeroPoint.bindingName? = none ∨
    stage.zeroPoint.elementType.bitwidth = 32
  perTensor : stage.axis = -1 →
    stage.scale.rank = 0 ∧ stage.zeroPoint.rank = 0 ∧ stage.channel = none
  perChannel : stage.axis ≠ -1 → (0 ≤ stage.axis ∧ stage.axis.toNat < stage.shape.length) ∧
    stage.scale.rank = 1 ∧ stage.channel ≠ none
  inline_length : stage.axis ≠ -1 → ∀ extent, stage.shape[stage.axis.toNat]? = some extent →
    ∀ param ∈ [stage.scale, stage.zeroPoint], param.fitsExtent (constantOf extent)
  scale_values : ∀ bits ∈ stage.scale.inlineBits, isFinitePositive (bits % 2 ^ 32)
  zeroPoint_values : ∀ bits ∈ stage.zeroPoint.inlineBits,
    (-128 ≤ signExtendBits bits stage.zeroPoint.elementType.bitwidth ∧
        signExtendBits bits stage.zeroPoint.elementType.bitwidth ≤ 127) ∧
      (stage.policy = .symmetricRne →
        signExtendBits bits stage.zeroPoint.elementType.bitwidth = 0)
  symmetric : stage.policy = .symmetricRne → stage.zeroPoint.bindingName? = none
  distinct : stage.scale.bindingName? = none ∨
    stage.scale.bindingName? ≠ stage.zeroPoint.bindingName?

/-- A stage the decoder accepts on its own. -/
def ValueStage.Valid (stage : ValueStage) : Prop :=
  match stage.transform with
  | .cast => stage.castSignature ∧
      (stage.scale = .none ∧ stage.zeroPoint = .none ∧ stage.axis = -1 ∧ stage.channel = none)
  | .quantize => stage.quantizeSignature ∧ stage.ParametersValid
  | .dequantize => stage.dequantizeSignature ∧ stage.ParametersValid

/-- The stages lead from one type to another. -/
def TypeChain : ElementType → List ValueStage → ElementType → Prop
  | type, [], last => type = last
  | type, stage :: rest, last => stage.input.type = type ∧ TypeChain stage.output.type rest last

/-- Bindings of one name are declared alike. -/
def Agree (declared : List StageParam) : Prop :=
  declared.Pairwise fun seen param => seen.bindingName? = param.bindingName? → seen = param

/-- The last pad of an axis. -/
def lastPad (pads : List PadFill) (axis : Nat) : Option PadFill :=
  pads.reverse.find? fun pad => pad.dstAxis = axis

/-- The type entering a stage. -/
def typeAt (sourceType : ElementType) (stages : List ValueStage) (stage : Nat) : ElementType :=
  if stage = 0 then sourceType else (stages[stage - 1]?.map (·.output.type)).getD sourceType

/-- A fill that enters at a stage with its type and folds to the fused fill. -/
def TypedFill.Valid (sourceType resultType : ElementType) (stages : List ValueStage)
    (pads : List PadFill) (fill : TypedFill) : Prop :=
  ∃ pad bits, lastPad pads fill.dstAxis = some pad ∧ fill.stage ≤ stages.length ∧
    fill.type = typeAt sourceType stages fill.stage ∧ pad.fillType = resultType ∧
    foldStages (stages.drop fill.stage) fill.bits fill.type = some bits ∧
    (bits = pad.fillBits ∨ (isNaNBits bits resultType ∧ isNaNBits pad.fillBits resultType))

/-- A typed plan that passes the cross-checks. -/
structure TypedRelocationPlan.Valid (plan : TypedRelocationPlan) : Prop where
  layout_source : plan.layout.src.elementType = plan.source.elementType
  layout_result : plan.layout.dst.elementType = plan.result.elementType
  source_rank : plan.layout.src.extents.length = plan.source.extents.length
  stages_ne : plan.stages ≠ []
  chain : TypeChain plan.source.elementType plan.stages plan.result.elementType
  stages : ∀ stage ∈ plan.stages, stage.Valid
  declarations : Agree (plan.stages.flatMap ValueStage.bindings)
  fills : ∀ fill ∈ plan.fills, fill.Valid plan.source.elementType plan.result.elementType
    plan.stages plan.layout.padFill
  fills_nodup : (plan.fills.map TypedFill.dstAxis).Nodup
  pads_filled : ∀ pad ∈ plan.layout.padFill, pad.dstAxis ∈ plan.fills.map TypedFill.dstAxis

/-! ### Stages -/

theorem validateAxis_eq_ok {position : Nat} {stage : ValueStage} :
    validateAxis position stage = .ok () ↔
      (stage.axis = -1 →
        stage.scale.rank = 0 ∧ stage.zeroPoint.rank = 0 ∧ stage.channel = none) ∧
      (stage.axis ≠ -1 → (0 ≤ stage.axis ∧ stage.axis.toNat < stage.shape.length) ∧
        stage.scale.rank = 1 ∧ stage.channel ≠ none) ∧
      (stage.axis ≠ -1 → ∀ extent, stage.shape[stage.axis.toNat]? = some extent →
        ∀ param ∈ [stage.scale, stage.zeroPoint], param.fitsExtent (constantOf extent)) := by
  unfold validateAxis
  by_cases haxis : stage.axis = -1
  · rw [if_pos haxis, require_eq_ok]
    simp [haxis]
  · rw [if_neg haxis]
    simp only [bind_ok_iff, exists_unit, fetch_eq_ok, forEach_eq_ok, require_eq_ok]
    constructor
    · rintro ⟨hrange, hscale, hchannel, extent, hextent, hparams⟩
      refine ⟨fun h => absurd h haxis, fun _ => ⟨hrange, hscale, hchannel⟩, ?_⟩
      intro _ extent' hextent'
      cases hextent.symm.trans hextent'
      exact hparams
    · rintro ⟨-, hrange, hparams⟩
      obtain ⟨⟨hnonneg, hlt⟩, hscale, hchannel⟩ := hrange haxis
      exact ⟨⟨hnonneg, hlt⟩, hscale, hchannel, _, List.getElem?_eq_getElem hlt,
        hparams haxis _ (List.getElem?_eq_getElem hlt)⟩

theorem validateParameters_eq_ok {position : Nat} {stage : ValueStage} :
    validateParameters position stage = .ok () ↔ stage.ParametersValid := by
  simp only [validateParameters, validateValues, bind_ok_iff, exists_unit, forEach_eq_ok,
    require_eq_ok, validateAxis_eq_ok]
  constructor
  · rintro ⟨hpresent, htype, hzero, hbinding, ⟨htensor, hchannel, hlength⟩, hscale, hvalues,
      hsymmetric, hdistinct⟩
    exact ⟨hpresent, htype, hzero, hbinding, htensor, hchannel, hlength, hscale, hvalues,
      hsymmetric, hdistinct⟩
  · intro h
    exact ⟨h.scale_present, h.scale_type, h.zeroPoint_type, h.zeroPoint_binding,
      ⟨h.perTensor, h.perChannel, h.inline_length⟩, h.scale_values, h.zeroPoint_values,
      h.symmetric, h.distinct⟩

theorem validateDeclarations_eq_ok {position : Nat} {params declared declared' : List StageParam}
    (hagree : Agree declared) :
    validateDeclarations position params declared = .ok declared' ↔
      Agree (declared ++ params) ∧ declared' = declared ++ params := by
  induction params generalizing declared with
  | nil => simp [validateDeclarations, hagree, eq_comm]
  | cons param rest ih =>
      have hsplit : declared ++ param :: rest = (declared ++ [param]) ++ rest := by simp
      have hone : Agree (declared ++ [param]) ↔
          ∀ seen ∈ declared, seen.bindingName? ≠ param.bindingName? ∨ seen = param := by
        simp only [Agree, List.pairwise_append, List.mem_singleton, forall_eq]
        constructor
        · intro h seen hseen
          exact or_iff_not_imp_left.mpr fun hname => h.2.2 seen hseen (not_not.mp hname)
        · intro h
          exact ⟨hagree, List.pairwise_singleton .., fun seen hseen hname =>
            (h seen hseen).resolve_left (not_not.mpr hname)⟩
      simp only [validateDeclarations, bind_ok_iff, exists_unit, forEach_eq_ok, require_eq_ok]
      constructor
      · rintro ⟨hseen, hrest⟩
        rw [ih (hone.mpr hseen)] at hrest
        rwa [hsplit]
      · intro h
        rw [hsplit] at h
        have hfirst : Agree (declared ++ [param]) := (List.pairwise_append.mp h.1).1
        exact ⟨hone.mp hfirst, (ih hfirst).mpr h⟩

/-- A valid cast declares nothing, so every stage appends its bindings. -/
theorem validateStage_eq_ok {position : Nat} {stage : ValueStage}
    {declared declared' : List StageParam} (hagree : Agree declared) :
    validateStage position stage declared = .ok declared' ↔
      stage.Valid ∧ Agree (declared ++ stage.bindings) ∧
        declared' = declared ++ stage.bindings := by
  unfold validateStage ValueStage.Valid
  cases stage.transform with
  | cast =>
      simp only [validateCast, bind_ok_iff, exists_unit, require_eq_ok, pure_eq]
      constructor
      · rintro ⟨⟨hsignature, hnone⟩, ⟨⟩⟩
        have hbindings : stage.bindings = [] := by
          simp [ValueStage.bindings, hnone.1, hnone.2.1, StageParam.bindingName?]
        rw [hbindings, List.append_nil]
        exact ⟨⟨hsignature, hnone⟩, hagree, rfl⟩
      · rintro ⟨⟨hsignature, hnone⟩, -, rfl⟩
        have hbindings : stage.bindings = [] := by
          simp [ValueStage.bindings, hnone.1, hnone.2.1, StageParam.bindingName?]
        rw [hbindings, List.append_nil]
        exact ⟨⟨hsignature, hnone⟩, rfl⟩
  | quantize =>
      simp only [bind_ok_iff, exists_unit, require_eq_ok, validateParameters_eq_ok,
        validateDeclarations_eq_ok hagree, and_assoc]
  | dequantize =>
      simp only [bind_ok_iff, exists_unit, require_eq_ok, validateParameters_eq_ok,
        validateDeclarations_eq_ok hagree, and_assoc]

theorem validateStages_eq_ok {located : List (Nat × ValueStage)}
    {declared declared' : List StageParam} (hagree : Agree declared) :
    validateStages located declared = .ok declared' ↔
      (∀ stage ∈ located.map Prod.snd, stage.Valid) ∧
        Agree (declared ++ (located.map Prod.snd).flatMap ValueStage.bindings) ∧
        declared' = declared ++ (located.map Prod.snd).flatMap ValueStage.bindings := by
  induction located generalizing declared with
  | nil => simp [validateStages, hagree, eq_comm]
  | cons entry rest ih =>
      obtain ⟨position, stage⟩ := entry
      simp only [validateStages, bind_ok_iff, validateStage_eq_ok hagree, List.map_cons,
        List.forall_mem_cons, List.flatMap_cons, ← List.append_assoc]
      constructor
      · rintro ⟨_, ⟨hstage, hfirst, rfl⟩, hrest⟩
        obtain ⟨hvalid, hagree', rfl⟩ := (ih hfirst).mp hrest
        exact ⟨⟨hstage, hvalid⟩, hagree', rfl⟩
      · rintro ⟨⟨hstage, hvalid⟩, hagree', rfl⟩
        have hfirst := (List.pairwise_append.mp hagree').1
        exact ⟨_, ⟨hstage, hfirst, rfl⟩, (ih hfirst).mpr ⟨hvalid, hagree', rfl⟩⟩

/-! ### Chain -/

theorem validateLinks_eq_ok {lastAt : Nat} {type last : ElementType}
    {located : List (Nat × ValueStage)} :
    (∃ at', validateLinks lastAt type located = .ok (at', last)) ↔
      TypeChain type (located.map Prod.snd) last := by
  induction located generalizing lastAt type with
  | nil => simp [validateLinks, TypeChain]
  | cons entry rest ih =>
      obtain ⟨position, stage⟩ := entry
      simp only [validateLinks, bind_ok_iff, exists_unit, require_eq_ok, exists_and_left, ih,
        List.map_cons, TypeChain]

theorem validateChain_eq_ok {stagesAt : Nat} {source result : ElementType}
    {located : List (Nat × ValueStage)} :
    validateChain stagesAt source result located = .ok () ↔
      located.map Prod.snd ≠ [] ∧ TypeChain source (located.map Prod.snd) result := by
  cases located with
  | nil => simp [validateChain]
  | cons entry rest =>
      obtain ⟨position, stage⟩ := entry
      have hrest : (∃ at', validateLinks position stage.output.type rest = .ok (at', result)) ↔
          TypeChain stage.output.type (rest.map Prod.snd) result := validateLinks_eq_ok
      simp only [validateChain, bind_ok_iff, exists_unit, require_eq_ok, List.map_cons, TypeChain,
        ← hrest, Prod.exists]
      constructor
      · rintro ⟨hinput, at', _, hlinks, rfl⟩
        exact ⟨by simp, hinput, at', hlinks⟩
      · rintro ⟨-, hinput, at', hlinks⟩
        exact ⟨hinput, at', _, hlinks, rfl⟩

/-! ### Fills -/

theorem lastPad_cons (pad : PadFill) (rest : List PadFill) (axis : Nat) :
    lastPad (pad :: rest) axis =
      (lastPad rest axis).or (if pad.dstAxis = axis then some pad else none) := by
  simp only [lastPad, List.reverse_cons, List.find?_append, List.find?_cons, List.find?_nil]
  by_cases h : pad.dstAxis = axis <;> simp [h]

theorem lastPad_mem {pads : List PadFill} {axis : Nat} {pad : PadFill}
    (h : lastPad pads axis = some pad) : pad ∈ pads ∧ pad.dstAxis = axis := by
  have hmem := List.mem_of_find?_eq_some h
  have haxis := List.find?_some h
  exact ⟨List.mem_reverse.mp hmem, by simpa using haxis⟩

/-- The pads with the flags they have once fills of some axes were seen. -/
def marks (seen : List Nat) (pads : List PadFill) : List (PadFill × Bool) :=
  pads.map fun pad => (pad, decide (pad.dstAxis ∈ seen))

theorem claimPads_marks {position axis : Nat} {seen : List Nat} {pads : List PadFill}
    {found found' : Option PadFill} {pads' : List (PadFill × Bool)} :
    claimPads position axis (marks seen pads) found = .ok (pads', found') ↔
      (axis ∈ seen → ∀ pad ∈ pads, pad.dstAxis ≠ axis) ∧ pads' = marks (axis :: seen) pads ∧
        found' = (lastPad pads axis).or found := by
  induction pads generalizing found found' pads' with
  | nil => simp [marks, claimPads, lastPad, eq_comm]
  | cons pad rest ih =>
      simp only [marks, List.map_cons] at ih ⊢
      rw [claimPads, lastPad_cons]
      by_cases haxis : pad.dstAxis = axis
      · simp only [if_pos haxis, bind_ok_iff, exists_unit, require_eq_ok, Prod.exists, ih, pure_eq,
          Outcome.ok.injEq, Prod.mk.injEq, decide_eq_false_iff_not, List.forall_mem_cons]
        constructor
        · rintro ⟨hfresh, _, _, ⟨-, rfl, rfl⟩, rfl, rfl⟩
          refine ⟨fun h => absurd (haxis ▸ h) hfresh, by simp [haxis], ?_⟩
          cases lastPad rest axis <;> simp
        · rintro ⟨hfresh, rfl, rfl⟩
          have hnew : pad.dstAxis ∉ seen := fun h => (hfresh (haxis ▸ h)).1 haxis
          refine ⟨hnew, _, _, ⟨fun h => absurd (haxis.symm ▸ h) hnew, rfl, rfl⟩, by simp [haxis],
            ?_⟩
          cases lastPad rest axis <;> simp
      · simp only [if_neg haxis, bind_ok_iff, Prod.exists, ih, pure_eq, Outcome.ok.injEq,
          Prod.mk.injEq, List.forall_mem_cons, Option.or_none]
        constructor
        · rintro ⟨_, _, ⟨hfresh, rfl, rfl⟩, rfl, rfl⟩
          exact ⟨fun h => ⟨haxis, hfresh h⟩, by simp [haxis], rfl⟩
        · rintro ⟨hfresh, rfl, rfl⟩
          exact ⟨_, _, ⟨fun h => (hfresh h).2, rfl, rfl⟩, by simp [haxis], rfl⟩

theorem entryType_eq {ε : Type} {sourceType : ElementType} {stages : List ValueStage}
    {stage : Nat} (h : stage ≤ stages.length) :
    (entryType sourceType stages stage : Outcome ε ElementType) =
      .ok (typeAt sourceType stages stage) := by
  unfold entryType typeAt
  by_cases hzero : stage = 0
  · rw [if_pos hzero, if_pos hzero]
  · have hlt : stage - 1 < stages.length := by omega
    rw [if_neg hzero, if_neg hzero, fetch_of_lt hlt, ok_bind, List.getElem?_eq_getElem hlt]
    rfl

theorem validateFill_eq_ok {source result : ElementType} {stages : List ValueStage}
    {position : Nat} {fill : TypedFill} {seen : List Nat} {pads : List PadFill}
    {pads' : List (PadFill × Bool)} :
    validateFill source result stages position fill (marks seen pads) = .ok pads' ↔
      fill.Valid source result stages pads ∧ fill.dstAxis ∉ seen ∧
        pads' = marks (fill.dstAxis :: seen) pads := by
  simp only [validateFill, bind_ok_iff, Prod.exists, claimPads_marks, Option.or_none]
  constructor
  · rintro ⟨_, _, ⟨hfresh, rfl, rfl⟩, hrun⟩
    split at hrun
    · cases hrun
    · rename_i pad hpad
      simp only [bind_ok_iff, exists_unit, require_eq_ok] at hrun
      obtain ⟨hstage, _, hentry, htype, hresult, hrun⟩ := hrun
      rw [entryType_eq hstage, Outcome.ok.injEq] at hentry
      subst hentry
      split at hrun
      · cases hrun
      · rename_i bits hbits
        simp only [bind_ok_iff, exists_unit, require_eq_ok] at hrun
        obtain ⟨hsame, ⟨⟩⟩ := hrun
        have hmem := lastPad_mem hpad
        exact ⟨⟨pad, bits, hpad, hstage, htype, hresult, hbits, hsame⟩,
          fun hseen => hfresh hseen pad hmem.1 hmem.2, rfl⟩
  · rintro ⟨⟨pad, bits, hpad, hstage, htype, hresult, hbits, hsame⟩, hfresh, rfl⟩
    refine ⟨_, _, ⟨fun hseen => absurd hseen hfresh, rfl, rfl⟩, ?_⟩
    rw [hpad]
    simp only [bind_ok_iff, exists_unit, require_eq_ok, entryType_eq hstage, Outcome.ok.injEq,
      exists_eq_left', hbits]
    exact ⟨hstage, htype, hresult, hsame, rfl⟩

theorem validateFills_eq_ok {source result : ElementType} {stages : List ValueStage}
    {located : List (Nat × TypedFill)} {seen : List Nat} {pads : List PadFill}
    {pads' : List (PadFill × Bool)} :
    validateFills source result stages located (marks seen pads) = .ok pads' ↔
      (∀ fill ∈ located.map Prod.snd, fill.Valid source result stages pads) ∧
        ((located.map Prod.snd).map TypedFill.dstAxis).Nodup ∧
        (∀ axis ∈ (located.map Prod.snd).map TypedFill.dstAxis, axis ∉ seen) ∧
        pads' = marks (((located.map Prod.snd).map TypedFill.dstAxis).reverse ++ seen) pads := by
  induction located generalizing seen with
  | nil => simp [validateFills, eq_comm]
  | cons entry rest ih =>
      obtain ⟨position, fill⟩ := entry
      simp only [validateFills, bind_ok_iff, validateFill_eq_ok, List.map_cons,
        List.forall_mem_cons, List.nodup_cons, List.reverse_cons, List.append_assoc,
        List.singleton_append]
      constructor
      · rintro ⟨_, ⟨hfill, hfresh, rfl⟩, hrest⟩
        obtain ⟨hvalid, hnodup, hseen, rfl⟩ := ih.mp hrest
        refine ⟨⟨hfill, hvalid⟩, ⟨fun hmem => ?_, hnodup⟩, ⟨hfresh, fun axis haxis hmem => ?_⟩, rfl⟩
        · exact hseen fill.dstAxis hmem (by simp)
        · exact hseen axis haxis (by simp [hmem])
      · rintro ⟨⟨hfill, hvalid⟩, ⟨hnew, hnodup⟩, ⟨hfresh, hseen⟩, rfl⟩
        refine ⟨_, ⟨hfill, hfresh, rfl⟩, ih.mpr ⟨hvalid, hnodup, fun axis haxis => ?_, rfl⟩⟩
        rintro (_ | ⟨_, hmem⟩)
        · exact hnew haxis
        · exact hseen axis haxis hmem

/-! ### The whole plan -/

/-- The checks accept exactly the valid plans. -/
theorem validateTyped_eq_ok {located : LocatedTypedPlan} :
    validateTyped located = .ok () ↔ located.plan.Valid := by
  have hmarks : (located.layout.padFill.map fun pad => (pad, false)) =
      marks [] located.layout.padFill := by simp [marks]
  have hagree : Agree [] := List.Pairwise.nil
  simp only [validateTyped, bind_ok_iff, exists_unit, validateChain_eq_ok,
    validateStages_eq_ok hagree, hmarks, validateFills_eq_ok, forEach_eq_ok, require_eq_ok,
    List.nil_append, List.append_nil]
  constructor
  · rintro ⟨hsource, hresult, hrank, ⟨hne, hchain⟩, _, ⟨hstages, hdeclared, -⟩, _,
      ⟨hfills, hnodup, -, rfl⟩, hfilled⟩
    refine ⟨hsource, hresult, hrank, hne, hchain, hstages, hdeclared, hfills, hnodup, ?_⟩
    intro pad hpad
    have hmark := hfilled _ (List.mem_map_of_mem hpad)
    simpa [LocatedTypedPlan.plan] using hmark
  · intro h
    refine ⟨h.layout_source, h.layout_result, h.source_rank, ⟨h.stages_ne, h.chain⟩, _,
      ⟨h.stages, h.declarations, rfl⟩, _, ⟨h.fills, h.fills_nodup, by simp, rfl⟩, ?_⟩
    intro entry hentry
    obtain ⟨pad, hpad, rfl⟩ := List.mem_map.mp hentry
    have hfilled := h.pads_filled pad hpad
    simpa [LocatedTypedPlan.plan] using hfilled

/-! ### No access out of range -/

theorem safe_validateAxis (position : Nat) (stage : ValueStage) :
    (validateAxis position stage).Safe := by
  unfold validateAxis
  refine sat_ite (fun _ => safe_require _ _) fun _ => ?_
  rw [sat_require_bind]
  intro hrange
  rw [sat_require_bind]
  intro _
  rw [sat_require_bind]
  intro _
  rw [fetch_of_lt hrange.2, ok_bind]
  exact safe_forEach fun _ _ => safe_require _ _

theorem safe_validateParameters (position : Nat) (stage : ValueStage) :
    (validateParameters position stage).Safe := by
  unfold validateParameters validateValues
  repeat refine safe_bind (safe_require _ _) fun _ => ?_
  refine safe_bind (safe_validateAxis position stage) fun _ => ?_
  refine safe_bind (safe_forEach fun _ _ => safe_require _ _) fun _ => ?_
  refine safe_bind (safe_forEach fun _ _ =>
    safe_bind (safe_require _ _) fun _ => safe_require _ _) fun _ => ?_
  exact safe_bind (safe_require _ _) fun _ => safe_require _ _

theorem safe_validateDeclarations (position : Nat) (params declared : List StageParam) :
    (validateDeclarations position params declared).Safe := by
  induction params generalizing declared with
  | nil => exact safe_ok _
  | cons param rest ih =>
      exact safe_bind (safe_forEach fun _ _ => safe_require _ _) fun _ => ih _

theorem safe_validateStages (located : List (Nat × ValueStage)) (declared : List StageParam) :
    (validateStages located declared).Safe := by
  induction located generalizing declared with
  | nil => exact safe_ok _
  | cons entry rest ih =>
      refine safe_bind ?_ fun _ => ih _
      unfold validateStage
      split
      · exact safe_bind (safe_bind (safe_require _ _) fun _ => safe_require _ _) fun _ => safe_ok _
      all_goals exact safe_bind (safe_require _ _) fun _ =>
        safe_bind (safe_validateParameters _ _) fun _ => safe_validateDeclarations _ _ _

theorem safe_validateChain (stagesAt : Nat) (source result : ElementType)
    (located : List (Nat × ValueStage)) : (validateChain stagesAt source result located).Safe := by
  have hlinks : ∀ (at' : Nat) (type : ElementType) (rest : List (Nat × ValueStage)),
      (validateLinks at' type rest).Safe := by
    intro at' type rest
    induction rest generalizing at' type with
    | nil => exact safe_ok _
    | cons entry rest ih => exact safe_bind (safe_require _ _) fun _ => ih _ _
  cases located with
  | nil => exact safe_error _
  | cons entry rest =>
      exact safe_bind (safe_require _ _) fun _ => safe_bind (hlinks _ _ _) fun _ => safe_require _ _

theorem safe_claimPads (position axis : Nat) (pads : List (PadFill × Bool))
    (found : Option PadFill) : (claimPads position axis pads found).Safe := by
  induction pads generalizing found with
  | nil => exact safe_ok _
  | cons entry rest ih =>
      unfold claimPads
      refine sat_ite (fun _ => ?_) fun _ => ?_
      · exact safe_bind (safe_require _ _) fun _ => safe_bind (ih _) fun _ => safe_ok _
      · exact safe_bind (ih _) fun _ => safe_ok _

theorem safe_validateFills (source result : ElementType) (stages : List ValueStage)
    (located : List (Nat × TypedFill)) (pads : List (PadFill × Bool)) :
    (validateFills source result stages located pads).Safe := by
  induction located generalizing pads with
  | nil => exact safe_ok _
  | cons entry rest ih =>
      refine safe_bind ?_ fun _ => ih _
      refine safe_bind (safe_claimPads _ _ _ _) fun claimed => ?_
      obtain ⟨claimed, found⟩ := claimed
      cases found with
      | none => exact safe_error _
      | some pad =>
          refine sat_require_bind.mpr fun hstage => ?_
          rw [entryType_eq hstage, ok_bind]
          refine safe_bind (safe_require _ _) fun _ => safe_bind (safe_require _ _) fun _ => ?_
          split
          · exact safe_error _
          · exact safe_bind (safe_require _ _) fun _ => safe_ok _

theorem safe_validateTyped (located : LocatedTypedPlan) : (validateTyped located).Safe := by
  unfold validateTyped
  repeat refine safe_bind (safe_require _ _) fun _ => ?_
  refine safe_bind (safe_validateChain _ _ _ _) fun _ => ?_
  refine safe_bind (safe_validateStages _ _) fun _ => ?_
  refine safe_bind (safe_validateFills _ _ _ _ _) fun _ => ?_
  exact safe_forEach fun _ _ => safe_require _ _

/-! ### Decoding -/

/-- `decodeTypedPlan`. -/
def decodeTypedPlan (data : List UInt8) : Outcome DecodeError TypedRelocationPlan :=
  ByteReader.decodeAll typedPlanReader "trailing bytes after fills section"
    (fun _ located => do
      validateTyped located
      pure located.plan) data

/-- What the decoder guarantees of a typed plan. -/
structure TypedRelocationPlan.WellFormed (plan : TypedRelocationPlan) : Prop where
  sections : plan.SectionsWellFormed
  valid : plan.Valid

/-- A buffer decodes to a typed plan exactly when the plan is well formed and the
    buffer is its encoding. -/
theorem decodeTypedPlan_eq_ok {data : List UInt8} {plan : TypedRelocationPlan} :
    decodeTypedPlan data = .ok plan ↔ plan.WellFormed ∧ data = writeTypedPlan plan := by
  rw [decodeTypedPlan, ByteReader.decodeAll_eq_ok codes_typedPlanReader]
  simp only [bind_ok_iff, exists_unit, validateTyped_eq_ok, pure_eq]
  constructor
  · rintro ⟨located, -, hsections, hdata, hvalid, ⟨⟩⟩
    exact ⟨⟨hsections, hvalid⟩, hdata⟩
  · rintro ⟨⟨hsections, hvalid⟩, rfl⟩
    obtain ⟨located, hread, rfl⟩ := ByteReader.reads_write codes_typedPlanReader hsections
    exact ⟨located, hread, hsections, rfl, hvalid, rfl⟩

theorem safe_decodeTypedPlan (data : List UInt8) : (decodeTypedPlan data).Safe :=
  ByteReader.safe_decodeAll codes_typedPlanReader
    (fun _ located _ => safe_bind (safe_validateTyped located) fun _ => safe_ok _) data

end SymReloc
