import SymReloc.Runtime.Bind
import SymReloc.Wire.DecodeIndexed

/-!
# Binding a typed plan

`bindTyped` binds the layout, evaluates the logical descriptors and the stage
shapes, copies every parameter value into the plan after checking it, and
computes the footprint of the tensor at every stage boundary.

Two accesses rely on the decoder: the extent of the channel axis of a rank-1
parameter, and the strides of a descriptor.
-/

namespace SymReloc

open Outcome

/-! ### Inputs and results -/

/-- A runtime parameter value: no extents for rank 0, one for rank 1. -/
structure ParameterValue where
  elementType : ElementType
  extents : List Int
  bytes : List UInt8
deriving DecidableEq, Repr

/-- The caller's parameters: an ordered map, so every name occurs once. -/
structure ParameterMap where
  entries : List (Name × ParameterValue)
  nodup : (entries.map Prod.fst).Nodup

def ParameterMap.find (map : ParameterMap) (name : Name) : Option ParameterValue :=
  (map.entries.find? fun entry => entry.1 = name).map Prod.snd

/-- A parameter after binding; the name is empty for an inline constant. -/
structure BoundParameter where
  elementType : ElementType
  length : Int
  bytes : List UInt8
  bindingName : Name
deriving DecidableEq, Repr

structure BoundStage where
  transform : ValueTransformKind
  policy : NumericPolicyKind
  input : StageType
  output : StageType
  shape : List Int
  axis : Int
  channel : Option ExprStream
  scale : Option BoundParameter
  zeroPoint : Option BoundParameter
deriving DecidableEq, Repr

/-- The footprint of the tensor at a stage boundary. -/
structure StageFootprint where
  boundary : Nat
  elementType : ElementType
  elements : Int
  bytes : Int
deriving DecidableEq, Repr

structure TypedBoundPlan where
  layout : BoundPlan
  sourceExtents : List Int
  resultExtents : List Int
  sourceType : ElementType
  resultType : ElementType
  symbols : List Int
  stages : List BoundStage
  fills : List TypedFill
  cuts : List StageFootprint
  sourceBytes : Int
  destinationBytes : Int
  parameterBytes : Int
  requirements : List String
deriving DecidableEq, Repr

/-! ### Descriptors -/

def evalAll (streams : List ExprStream) (symbols : List Int) (what : String) :
    Outcome BindError (List Int) :=
  mapEach streams fun stream => evalField stream symbols what

/-- The strides against the suffix products of the extents, innermost first. -/
def checkDenseStrides (what : String) (extents strides : List Int) :
    Nat → Int → Outcome BindError Unit
  | 0, _ => .ok ()
  | k + 1, running => do
      let stride ← fetch strides k
      require (stride = running)
        (.refused (what ++ ": only dense row-major strides are supported"))
      let extent ← fetch extents k
      let running ← checkedOr (running * extent) (.refused (what ++ ": stride product overflows"))
      checkDenseStrides what extents strides k running

/-- `concreteDenseDescriptor`: concrete positive extents, zero offset, strides
    elided or dense row-major. -/
def concreteDenseDescriptor (desc : TensorDesc) (symbols : List Int) (what : String) :
    Outcome BindError (List Int) := do
  let extents ← evalAll desc.extents symbols what
  require (extents ≠ []) (.refused (what ++ ": rank must be >= 1"))
  require (∀ extent ∈ extents, 1 ≤ extent) (.refused (what ++ ": extents must be >= 1"))
  let offset ← evalField desc.offset symbols what
  require (offset = 0) (.refused (what ++ ": only zero offsets are supported"))
  if desc.strides = [] then pure extents
  else do
    let strides ← evalAll desc.strides symbols what
    checkDenseStrides what extents strides extents.length 1
    pure extents

/-- The product of extents, none when a partial product does not fit. -/
def checkedProduct (text : String) : List Int → Int → Outcome BindError Int
  | [], product => .ok product
  | extent :: rest, product => do
      let product ← checkedOr (product * extent) (.refused text)
      checkedProduct text rest product

/-! ### Parameters -/

/-- Bytes of a parameter, read without a bounds check. -/
def readParameter (bytes : List UInt8) (offset count : Nat) : Outcome BindError (List UInt8) :=
  if offset + count ≤ bytes.length then .ok ((bytes.drop offset).take count)
  else .fault .outOfBounds

/-- `checkParameterValues`.  A scale is read as a `float` whatever its width. -/
def checkParameterValues (param : BoundParameter) (isScale : Bool) (policy : NumericPolicyKind) :
    Outcome BindError Unit :=
  let width := byteWidth param.elementType
  forEach (List.range param.length.toNat) fun index =>
    if isScale then do
      let element ← readParameter param.bytes (index * width) 4
      require (isFinitePositive (leNat element))
        (.refused "scale must be finite and strictly positive")
    else do
      let element ← readParameter param.bytes (index * width) width
      let zeroPoint := signExtendBits (leNat element) param.elementType.bitwidth
      require (-128 ≤ zeroPoint ∧ zeroPoint ≤ 127)
        (.refused "zero point must lie in [-128, 127]")
      require (policy = .symmetricRne → zeroPoint = 0)
        (.refused "symmetric_rne admits only the zero point 0")

/-- `fromInline`: an inline constant as owned little-endian bytes. -/
def fromInline (elementType : ElementType) (inlineBits : List Nat) : BoundParameter where
  elementType
  length := inlineBits.length
  bytes := inlineBits.flatMap (leBytes (byteWidth elementType))
  bindingName := []

/-- The number of values a parameter needs: one, or the extent of the channel axis. -/
def expectedLength (shape : List Int) (axis : Int) (rank : Nat) : Outcome BindError Int :=
  if rank = 0 then .ok 1
  else if 0 ≤ axis then fetch shape axis.toNat
  else .fault .outOfBounds

def paramText (name : Name) (text : String) : BindError :=
  .refused ("parameter '" ++ nameText name ++ "'" ++ text)

/-- The value of a declared binding against its declaration. -/
def bindValue (symbols : List Int) (parameters : ParameterMap) (expected : Int) (name : Name)
    (extents : List ExprStream) (elementType : ElementType) : Outcome BindError BoundParameter :=
  match parameters.find name with
  | none => .error (.refused ("unbound parameter: " ++ nameText name))
  | some value => do
      require (value.elementType = elementType)
        (paramText name " element type differs from its declaration")
      require (value.extents.length = extents.length)
        (paramText name " rank differs from its declaration")
      let declaredLength ← declaredExtent
      require (declaredLength = expected)
        (paramText name (" declares length " ++ toString declaredLength ++
          " but the channel extent is " ++ toString expected))
      let valueLength ← if extents.length = 0 then pure 1 else fetch value.extents 0
      require (valueLength = expected)
        (paramText name (" has length " ++ toString valueLength ++
          " but the channel extent is " ++ toString expected))
      let needed ← checkedOr (expected * byteWidth elementType)
        (.refused "parameter byte count overflows")
      require ((value.bytes.length : Int) = needed)
        (paramText name (" has " ++ toString value.bytes.length ++ " bytes, expected " ++
          toString needed))
      pure { elementType, length := expected, bytes := value.bytes, bindingName := name }
where
  declaredExtent : Outcome BindError Int :=
    if extents.length = 1 then do
      let extent ← fetch extents 0
      evalField extent symbols "parameter extent"
    else .ok 1

/-- One declared parameter of a stage, none when it declares none. -/
def bindParameter (symbols : List Int) (parameters : ParameterMap) (stage : ValueStage)
    (shape : List Int) (isScale : Bool) (declared : StageParam) :
    Outcome BindError (Option BoundParameter) :=
  match declared with
  | .none => .ok none
  | .inline rank elementType inlineBits => do
      let expected ← expectedLength shape stage.axis rank
      require (byteWidth elementType ≠ 0)
        (.refused "parameter element type bitwidth must be a positive multiple of 8")
      let target := fromInline elementType inlineBits
      require (target.length = expected)
        (.refused ("inline parameter holds " ++ toString target.length ++
          " values but the channel extent is " ++ toString expected))
      checkTarget target
  | .binding name extents elementType => do
      let expected ← expectedLength shape stage.axis extents.length
      require (byteWidth elementType ≠ 0)
        (.refused "parameter element type bitwidth must be a positive multiple of 8")
      let target ← bindValue symbols parameters expected name extents elementType
      checkTarget target
where
  checkTarget (target : BoundParameter) : Outcome BindError (Option BoundParameter) := do
    (checkParameterValues target isScale stage.policy).mapError
      (.within (if isScale then "scale: " else "zero_point: "))
    pure (some target)

/-! ### Stages -/

/-- The running total of parameter bytes. -/
def addParameterBytes (total : Int) (param : Option BoundParameter) : Outcome BindError Int :=
  match param with
  | none => .ok total
  | some param => checkedOr (total + param.bytes.length) (.refused "parameter byte total overflows")

/-- One stage, with the parameter bytes so far. -/
def bindStage (symbols : List Int) (parameters : ParameterMap) (stage : ValueStage) (total : Int) :
    Outcome BindError (BoundStage × Int) := do
  let shape ← evalAll stage.shape symbols "stage shape"
  require (∀ extent ∈ shape, 1 ≤ extent) (.refused "stage shape extents must be >= 1")
  require (0 ≤ stage.axis → stage.axis.toNat < shape.length) .channelAxis
  let scale ← bindParameter symbols parameters stage shape true stage.scale
  let total ← addParameterBytes total scale
  let zeroPoint ← bindParameter symbols parameters stage shape false stage.zeroPoint
  let total ← addParameterBytes total zeroPoint
  pure ({ transform := stage.transform, policy := stage.policy, input := stage.input,
          output := stage.output, shape, axis := stage.axis, channel := stage.channel, scale,
          zeroPoint }, total)

def bindStages (symbols : List Int) (parameters : ParameterMap) :
    List ValueStage → Int → Outcome BindError (List BoundStage × Int)
  | [], total => .ok ([], total)
  | stage :: rest, total => do
      let (bound, total) ← bindStage symbols parameters stage total
      let (bounds, total) ← bindStages symbols parameters rest total
      pure (bound :: bounds, total)

/-- The names a plan's stages bind. -/
def usedParameters (stages : List ValueStage) : List Name :=
  (stages.flatMap ValueStage.bindings).filterMap StageParam.bindingName?

/-! ### Footprints -/

/-- The width and entry stage of the pads of every axis; a later pad of the same
    axis replaces an earlier one, and so does a later fill. -/
def padFootprint (fills : List TypedFill) (symbols : List Int) :
    List PadFill → List (Int × Nat) → Outcome BindError (List (Int × Nat))
  | [], pads => .ok pads
  | pad :: rest, pads => do
      require (pad.dstAxis < pads.length) .padAxis
      let lo ← evalField pad.lo symbols "pad lo"
      let hi ← evalField pad.hi symbols "pad hi"
      let total ← checkedOr (lo + hi) (.refused "pad widths must be non-negative")
      require (0 ≤ lo ∧ 0 ≤ hi) (.refused "pad widths must be non-negative")
      let old ← fetch pads pad.dstAxis
      let stage := ((fills.reverse.find? fun fill => fill.dstAxis = pad.dstAxis).map
        TypedFill.stage).getD old.2
      padFootprint fills symbols rest (pads.set pad.dstAxis (total, stage))

/-- The number of elements at a boundary: a pad counts from its entry stage on. -/
def cutElements (boundary : Nat) : List (Int × (Int × Nat)) → Int → Outcome BindError Int
  | [], elements => .ok elements
  | (extent, width, stage) :: rest, elements => do
      let extent ← if width ≠ 0 ∧ stage ≤ boundary then
          checkedOr (extent + width) (.refused "padded extent overflows")
        else .ok extent
      let elements ← checkedOr (elements * extent) (.refused "stage element count overflows")
      cutElements boundary rest elements

def bindCut (plan : TypedRelocationPlan) (axes : List (Int × (Int × Nat))) (boundary : Nat) :
    Outcome BindError StageFootprint := do
  let elementType ← entryType plan.source.elementType plan.stages boundary
  let elements ← cutElements boundary axes 1
  require (byteWidth elementType ≠ 0)
    (.refused "stage element type bitwidth must be a positive multiple of 8")
  let bytes ← checkedOr (elements * byteWidth elementType) (.refused "stage byte count overflows")
  pure { boundary, elementType, elements, bytes }

/-! ### The bound plan -/

/-- `bindTyped`. -/
def bindTyped (plan : TypedRelocationPlan) (map : SymbolMap) (parameters : ParameterMap) :
    Outcome BindError TypedBoundPlan := do
  let layout ← (bind plan.layout map .auto).mapError (.within "layout: ")
  let symbols ← resolveSymbols plan.layout.symbols map
  let sourceExtents ← concreteDenseDescriptor plan.source symbols "source"
  let resultExtents ← concreteDenseDescriptor plan.result symbols "result"
  let sourceType := plan.source.elementType
  let resultType := plan.result.elementType
  require (byteWidth sourceType ≠ 0 ∧ byteWidth resultType ≠ 0)
    (.refused "element type bitwidth must be a positive multiple of 8")
  let (stages, parameterBytes) ← bindStages symbols parameters plan.stages 0
  forEach parameters.entries fun entry =>
    require (entry.1 ∈ usedParameters plan.stages)
      (.refused ("unknown parameter in binding: " ++ nameText entry.1))
  let sourceElements ← checkedProduct "source element count overflows" sourceExtents 1
  let sourceBytes ← checkedOr (sourceElements * byteWidth sourceType)
    (.refused "source byte count overflows")
  let axisExtents ← evalAll (plan.layout.axes.map Axis.extent) symbols "layout axis extent"
  let pads ← padFootprint plan.fills symbols plan.layout.padFill
    (axisExtents.map fun _ => (0, 0))
  let cuts ← mapEach (List.range (plan.stages.length + 1)) (bindCut plan (axisExtents.zip pads))
  let last ← fetch cuts plan.stages.length
  require (last.bytes = layout.totalBytes)
    (.refused ("layout footprint (" ++ toString layout.totalBytes ++
      " bytes) disagrees with the result descriptor (" ++ toString last.bytes ++ " bytes)"))
  let resultElements ← checkedProduct "result element count overflows" resultExtents 1
  require (resultElements = last.elements)
    (.refused "result descriptor element count disagrees with the layout")
  pure {
    layout := { layout with typed := true }
    sourceExtents, resultExtents, sourceType, resultType, symbols, stages
    fills := plan.fills
    cuts, sourceBytes
    destinationBytes := last.bytes
    parameterBytes
    requirements := ["typed_execution_dispatch"] }

end SymReloc
