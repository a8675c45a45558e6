import SymReloc.Runtime.BindTyped

/-!
# Typed programs

`prepareProgram` checks every stage of a bound typed plan against the arithmetic that
is implemented and decodes its parameters; `applyStage` is that arithmetic on one
value.  `fillAt` folds the pads' original fills through the stages up to a boundary.

The runtime row indirections (indexed rows, pooled bags) are attached to a program
later and are left out.
-/

namespace SymReloc

open Outcome Ieee Quant

/-! ### Errors -/

inductive ExecutionCode where
  | unsupportedStage
  | invalidParameter
  | padsNotSettled
  | padNotEntered
  | fillCrossesChannelStage
  | fillTypeMismatch
  | mixedFillsUnsupported
  | fillMismatch
  | invalidBoundary
  | invalidChunk
  | channelOutOfRange
  | channelEvaluationFailed
  | indexOutOfRange
deriving DecidableEq, Repr

/-- The stable reason code. -/
def ExecutionCode.text : ExecutionCode → String
  | .unsupportedStage => "unsupported_stage"
  | .invalidParameter => "invalid_parameter"
  | .padsNotSettled => "pads_not_settled"
  | .padNotEntered => "pad_not_entered"
  | .fillCrossesChannelStage => "fill_crosses_channel_stage"
  | .fillTypeMismatch => "fill_type_mismatch"
  | .mixedFillsUnsupported => "mixed_fills_unsupported"
  | .fillMismatch => "fill_mismatch"
  | .invalidBoundary => "invalid_boundary"
  | .invalidChunk => "invalid_chunk"
  | .channelOutOfRange => "channel_out_of_range"
  | .channelEvaluationFailed => "channel_evaluation_failed"
  | .indexOutOfRange => "index_out_of_range"

structure ExecutionError where
  code : ExecutionCode
  message : String
deriving DecidableEq, Repr

/-! ### Programs -/

/-- One stage's checked arithmetic; `float`s are their bits. -/
structure StageArithmetic where
  transform : ValueTransformKind
  policy : NumericPolicyKind
  input : ElementType
  output : ElementType
  scale : List Nat
  invScale : List Nat
  zeroPoint : List Int
  perChannel : Bool
  channelIsDim : Bool
  channelDim : Nat
  channelLength : Int
deriving DecidableEq, Repr

structure Program where
  plan : TypedBoundPlan
  stages : List StageArithmetic
  resultStrides : List Int
  sourceElements : Int
  resultElements : Int
deriving DecidableEq, Repr

/-! ### Parameters -/

/-- `readScales`. -/
def readScales (param : Option BoundParameter) : Outcome String (List Nat) :=
  match param with
  | none => .error "scale is absent"
  | some param => do
      require (isFloatWidth param.elementType 32) "scale is not f32"
      require ((param.bytes.length : Int) = param.length * 4)
        "scale byte size disagrees with its length"
      mapEach (List.range param.length.toNat) fun i => do
        let bits := leNat ((param.bytes.drop (i * 4)).take 4)
        require (isFinitePositive bits) "scale is not finite and strictly positive"
        pure bits

/-- `readZeroPoints`. -/
def readZeroPoints (param : Option BoundParameter) : Outcome String (List Int) :=
  match param with
  | none => .ok [0]
  | some param => do
      require (param.elementType.kind = .integer ∧ param.elementType.bitwidth ≠ 0 ∧
          param.elementType.bitwidth ≤ 64 ∧ param.elementType.bitwidth % 8 = 0)
        "zero point is not a byte-multiple integer type"
      let width := param.elementType.bitwidth / 8
      require ((param.bytes.length : Int) = param.length * width)
        "zero point byte size disagrees with its length"
      mapEach (List.range param.length.toNat) fun i => do
        let raw := leNat ((param.bytes.drop (i * width)).take width)
        let value := signExtendBits raw param.elementType.bitwidth
        require (-128 ≤ value ∧ value ≤ 127) "zero point outside [-128, 127]"
        pure value

/-! ### Preparation -/

/-- The dense row-major strides of the logical result. -/
def rowMajorStrides : List Int → List Int
  | [] => []
  | _ :: extents => extents.prod :: rowMajorStrides extents

def stageFailure (k : Nat) (code : ExecutionCode) (why : String) : ExecutionError :=
  ⟨code, "stage " ++ toString k ++ ": " ++ why⟩

/-- The transform's own checks; the result has no channel yet. -/
def prepareArithmetic (k : Nat) (bound : BoundStage) : Outcome ExecutionError StageArithmetic :=
  let input := bound.input.type
  let output := bound.output.type
  let stage : StageArithmetic :=
    { transform := bound.transform, policy := bound.policy, input, output, scale := [],
      invScale := [], zeroPoint := [], perChannel := false, channelIsDim := false,
      channelDim := 0, channelLength := 1 }
  match bound.transform with
  | .cast => do
      require ((isFloatWidth input 32 ∧ (isFloatWidth output 16 ∨ isBFloat16 output) ∧
            bound.policy = .ieeeRne) ∨
          ((isFloatWidth input 16 ∨ isBFloat16 input) ∧ isFloatWidth output 32 ∧
            bound.policy = .exact))
        (stageFailure k .unsupportedStage ("only cast f32->f16/bf16 ieee_rne and " ++
          "f16/bf16->f32 exact have a reference implementation"))
      pure stage
  | .quantize => do
      require (isFloatWidth input 32 ∧ isInt8 output ∧ bound.policy = .symmetricRne)
        (stageFailure k .unsupportedStage ("only quantize f32->s8 symmetric_rne has a " ++
          "reference implementation"))
      let scale ← (readScales bound.scale).mapError (stageFailure k .invalidParameter)
      let zeroPoints ← (readZeroPoints bound.zeroPoint).mapError
        (stageFailure k .invalidParameter)
      require (∀ zeroPoint ∈ zeroPoints, zeroPoint = 0)
        (stageFailure k .invalidParameter "symmetric_rne admits only zero point 0")
      pure { stage with scale, invScale := scale.map (Format.binary32.div f32One) }
  | .dequantize => do
      require (isInt8 input ∧ isFloatWidth output 32 ∧ bound.policy = .affine)
        (stageFailure k .unsupportedStage ("only dequantize s8->f32 affine has a reference " ++
          "implementation"))
      let scale ← (readScales bound.scale).mapError (stageFailure k .invalidParameter)
      let zeroPoint ← (readZeroPoints bound.zeroPoint).mapError
        (stageFailure k .invalidParameter)
      pure { stage with scale, zeroPoint }

/-- The channel map is one result coordinate: it is that coordinate alone, or modulo
    a number no coordinate reaches. -/
def channelIsDimension (plan : TypedBoundPlan) (extent : Int) : ExprStream → Bool
  | [] => true
  | [token, .apply .mod] =>
      match token with
      | .pushConst _ | .pushSym _ =>
          match evalChannel [token] plan.symbols [] with
          | .ok modulus => decide (0 < modulus ∧ extent ≤ modulus)
          | _ => false
      | _ => false
  | _ => false

/-- The coordinate a channel map starts from, and whether it is that coordinate. -/
def channelDimension (plan : TypedBoundPlan) : ExprStream → Bool × Nat
  | .pushDim dim :: rest =>
      match plan.resultExtents[dim]? with
      | some extent => (channelIsDimension plan extent rest, dim)
      | none => (false, 0)
  | _ => (false, 0)

def prepareStage (plan : TypedBoundPlan) (k : Nat) (bound : BoundStage) :
    Outcome ExecutionError StageArithmetic := do
  let stage ← prepareArithmetic k bound
  match bound.channel with
  | some channel => do
      require (stage.scale ≠ [])
        (stageFailure k .invalidParameter "per-channel stage without scales")
      require (stage.zeroPoint.length ≤ 1 ∨ stage.zeroPoint.length = stage.scale.length)
        (stageFailure k .invalidParameter "zero point length disagrees with the scale")
      let dimension := channelDimension plan channel
      pure { stage with
        perChannel := true
        channelIsDim := dimension.1
        channelDim := dimension.2
        channelLength := stage.scale.length }
  | none => do
      require (stage.scale.length ≤ 1 ∧ stage.zeroPoint.length ≤ 1)
        (stageFailure k .invalidParameter "per-tensor stage with more than one parameter")
      pure stage

def prepareProgram (plan : TypedBoundPlan) : Outcome ExecutionError Program := do
  let stages ← mapEach plan.stages.zipIdx fun entry => prepareStage plan entry.2 entry.1
  pure {
    plan, stages
    resultStrides := rowMajorStrides plan.resultExtents
    sourceElements := plan.sourceExtents.prod
    resultElements := plan.resultExtents.prod }

/-! ### One value -/

/-- `applyStage`; the channel is in range, as the source asserts. -/
def applyStage (stage : StageArithmetic) (bits : Nat) (channel : Int) : Nat :=
  let c := if stage.perChannel then channel.toNat else 0
  match stage.transform with
  | .cast =>
      if isFloatWidth stage.input 32 then
        if isBFloat16 stage.output then narrowF32BF16 (bits % 2 ^ 32)
        else narrowF32F16 (bits % 2 ^ 32)
      else if isBFloat16 stage.input then widenBF16F32 (bits % 2 ^ 16)
      else widenF16F32 (bits % 2 ^ 16)
  | .quantize => (quantizeOneF32S8 (bits % 2 ^ 32) (stage.invScale.getD c 0) % 2 ^ 8).toNat
  | .dequantize =>
      let q := signExtendBits bits 8
      let zeroPoint :=
        if stage.zeroPoint.length = 1 then stage.zeroPoint.getD 0 0 else stage.zeroPoint.getD c 0
      Format.binary32.mul (Format.binary32.ofInt (q - zeroPoint)) (stage.scale.getD c 0)

/-! ### Boundaries -/

namespace Program

variable (program : Program)

/-- `typeAt`: the type of the values at a boundary. -/
def typeAt (boundary : Nat) : Outcome ExecutionError ElementType :=
  if boundary = 0 then .ok program.plan.sourceType
  else do
    let stage ← fetch program.stages (boundary - 1)
    pure stage.output

def widthAt (boundary : Nat) : Outcome ExecutionError Nat := do
  let type ← program.typeAt boundary
  pure (byteWidth type)

def padsSettledBy (boundary : Nat) : Bool :=
  program.plan.fills.all fun fill => fill.stage ≤ boundary

/-- A fill through the stages `[k, boundary)`. -/
def foldFrom (boundary : Nat) (bits : Nat) (type : ElementType) :
    List (StageArithmetic × Nat) → Outcome ExecutionError Nat
  | [] => do
      let expected ← program.typeAt boundary
      require (type = expected)
        ⟨.fillTypeMismatch, "pad fill type disagrees with boundary " ++ toString boundary⟩
      pure bits
  | (stage, k) :: rest => do
      require (stage.perChannel = false) ⟨.fillCrossesChannelStage,
        "a pad fill would cross per-channel stage " ++ toString k⟩
      require (type = stage.input)
        ⟨.fillTypeMismatch, "pad fill type disagrees with stage " ++ toString k⟩
      foldFrom boundary (applyStage stage bits 0) stage.output rest

/-- The bits of one fill at a boundary. -/
def foldedFill (boundary : Nat) (fill : TypedFill) : Outcome ExecutionError Nat := do
  require (fill.stage ≤ boundary) ⟨.padNotEntered, "a pad enters at stage " ++
    toString fill.stage ++ ", after boundary " ++ toString boundary⟩
  program.foldFrom boundary fill.bits fill.type
    ((program.stages.take boundary).zipIdx.drop fill.stage)

/-- The value all fills agree on. -/
def agreedFill (boundary : Nat) : Option Nat → List TypedFill →
    Outcome ExecutionError (Option Nat)
  | agreed, [] => .ok agreed
  | agreed, fill :: rest => do
      let bits ← program.foldedFill boundary fill
      require (agreed = none ∨ agreed = some bits) ⟨.mixedFillsUnsupported,
        "pads carry different values at boundary " ++ toString boundary⟩
      agreedFill boundary (some bits) rest

/-- `fillAt`: the bits every pad has at a boundary, none without pads. -/
def fillAt (boundary : Nat) : Outcome ExecutionError (Option Nat) := do
  require (boundary ≤ program.stages.length)
    ⟨.invalidBoundary, "boundary beyond the last stage"⟩
  if program.plan.fills = [] then pure none
  else do
    let agreed ← program.agreedFill boundary none program.plan.fills
    match program.plan.layout.padRegions with
    | [] => pure agreed
    | region :: _ => do
        require (boundary = program.stages.length → agreed = some region.fillBits)
          ⟨.fillMismatch, "folded fill disagrees with the layout's fused fill"⟩
        pure agreed

end Program

end SymReloc
