import SymReloc.Wire.Encode

/-!
# The layout half of the encoder

Types, descriptors and the sections of the layout body, with the plan each of
them stands for on the wire.  `encodePlan_eq_ok` says that the encoder's output
is the documented encoding of `PlanAttr.toWire`, whose symbol table lists the
plan's symbols by first use.
-/

namespace SymReloc

open ByteReader

/-! ### Element types and constants -/

/-- The element types the format represents. -/
def wireElementType? : MlirType → Option ElementType
  | .float .f16 => some ⟨.float, 16⟩
  | .float .f32 => some ⟨.float, 32⟩
  | .float .f64 => some ⟨.float, 64⟩
  | .float .bf16 => some ⟨.bfloat, 16⟩
  | .integer .signless width => if width > 64 then none else some ⟨.integer, width⟩
  | .index => some ⟨.index, 64⟩
  | _ => none

/-- The wire type of a representable type. -/
def wireElementType (type : MlirType) : ElementType :=
  (wireElementType? type).getD ⟨.integer, 0⟩

/-- The bits of a scalar constant, zero-extended. -/
def TypedAttr.rawBits? : TypedAttr → Option Nat
  | .float _ bits => some bits.toNat
  | .integer _ _ bits => some bits.toNat
  | .index bits => some bits.toNat
  | .other .. => none

def TypedAttr.rawBits (value : TypedAttr) : Nat := value.rawBits?.getD 0

/-- `emitType`. -/
def emitType (type : MlirType) : Encode Unit :=
  match type with
  | .float .bf16 => do
      emitU8 1
      emitU32 16
  | .float .f16 => do
      emitU8 0
      emitU32 16
  | .float .f32 => do
      emitU8 0
      emitU32 32
  | .float .f64 => do
      emitU8 0
      emitU32 64
  | .float (.other ..) => Encode.refuse (.typeNotRepresentable type)
  | .integer .signless width =>
      if width > 64 then Encode.refuse (.wideInteger type)
      else do
        emitU8 2
        emitU32 width
  | .integer _ _ => Encode.refuse (.signedInteger type)
  | .index => do
      emitU8 3
      emitU32 64
  | .complex _ => Encode.refuse (.typeNotRepresentable type)
  | .other _ => Encode.refuse (.typeNotRepresentable type)

/-- `emitTypedValue`. -/
def emitTypedValue (value : TypedAttr) : Encode Unit := do
  emitType value.type
  match value.rawBits? with
  | some raw => emitBytes (writeU64 raw)
  | none => Encode.refuse (.valueNotRepresentable value)

theorem emits_typeBytes (kind : UInt8) (width : Nat) :
    Emits (do emitU8 kind; emitU32 width) [] (fun _ => writeU8 kind ++ writeU32 width) True :=
  ((emits_emitBytes _).bind (emits_emitBytes _)).congr rfl (fun _ => rfl) fun _ => trivial

theorem emits_emitType (type : MlirType) :
    Emits (emitType type) [] (fun _ => writeElementType (wireElementType type))
      (wireElementType? type).isSome := by
  cases type with
  | float kind =>
      cases kind with
      | other mnemonic bits => exact emits_refuse _
      | _ => exact (emits_typeBytes _ _).congr rfl (fun _ => rfl) fun _ => rfl
  | integer signedness width =>
      cases signedness with
      | signless =>
          by_cases hwidth : width > 64
          · simp only [emitType, if_pos hwidth]
            exact emits_refuse _
          · simp only [emitType, wireElementType, wireElementType?, if_neg hwidth]
            exact (emits_typeBytes 2 width).congr rfl (fun _ => rfl) fun _ => rfl
      | signed => exact emits_refuse _
      | unsigned => exact emits_refuse _
  | index => exact (emits_typeBytes 3 64).congr rfl (fun _ => rfl) fun _ => rfl
  | complex element => exact emits_refuse _
  | other mnemonic => exact emits_refuse _

/-- A constant of a representable type with bits of its own. -/
def TypedAttr.Representable (value : TypedAttr) : Prop :=
  (wireElementType? value.type).isSome ∧ value.rawBits?.isSome

theorem emits_emitTypedValue (value : TypedAttr) :
    Emits (emitTypedValue value) []
      (fun _ => writeElementType (wireElementType value.type) ++ writeU64 value.rawBits)
      value.Representable := by
  have htype := emits_emitType value.type
  unfold emitTypedValue TypedAttr.rawBits TypedAttr.Representable
  cases value.rawBits? with
  | some raw =>
      exact (htype.bind (emits_emitBytes (writeU64 raw))).congr rfl (fun _ => rfl)
        fun hneeds => ⟨hneeds.1, rfl⟩
  | none =>
      exact (htype.bind (emits_refuse _)).congr rfl (fun _ => rfl) id

/-! ### Descriptors -/

/-- The expressions of a descriptor in the order they are written. -/
def TensorDescAttr.exprs (desc : TensorDescAttr) : List SymExpr :=
  desc.extents ++ (desc.strides ++ [desc.offset])

def streams (table : List Name) (exprs : List SymExpr) : List ExprStream :=
  exprs.map fun expr => (expr.toTree table).stream

def TensorDescAttr.toWire (table : List Name) (desc : TensorDescAttr) : TensorDesc where
  extents := streams table desc.extents
  strides := streams table desc.strides
  offset := (desc.offset.toTree table).stream
  elementType := wireElementType desc.elementType

/-- `emitDesc`. -/
def emitDesc (desc : TensorDescAttr) : Encode Unit := do
  emitVector emitExpr desc.extents
  emitVector emitExpr desc.strides
  emitExpr desc.offset
  emitType desc.elementType

theorem emits_exprs (exprs : List SymExpr) :
    Emits (emitVector emitExpr exprs) (exprs.flatMap SymExpr.symbolNames)
      (fun table => writeVector writeStream (streams table exprs)) True :=
  (emits_emitVector emits_emitExpr exprs).congr rfl
    (fun table => by simp only [writeVector, streams, List.length_map, List.flatMap_map])
    fun _ => trivial

theorem emits_emitDesc (desc : TensorDescAttr) :
    Emits (emitDesc desc) (desc.exprs.flatMap SymExpr.symbolNames)
      (fun table => writeTensorDesc (desc.toWire table))
      (wireElementType? desc.elementType).isSome :=
  ((emits_exprs desc.extents).bind ((emits_exprs desc.strides).bind
    ((emits_emitExpr desc.offset).bind (emits_emitType desc.elementType)))).congr
    (by simp [TensorDescAttr.exprs])
    (fun table => by simp only [writeTensorDesc, TensorDescAttr.toWire, List.append_assoc])
    fun hneeds => hneeds.2.2.2

/-! ### Axes, pads and constraints -/

def AxisInfoAttr.exprs (axis : AxisInfoAttr) : List SymExpr :=
  [axis.extent, axis.srcStride, axis.dstStride]

def AxisInfoAttr.toWire (table : List Name) (axis : AxisInfoAttr) : Axis where
  name := axis.name
  extent := (axis.extent.toTree table).stream
  srcStride := (axis.srcStride.toTree table).stream
  dstStride := (axis.dstStride.toTree table).stream

def emitAxis (axis : AxisInfoAttr) : Encode Unit := do
  emitStr axis.name
  emitExpr axis.extent
  emitExpr axis.srcStride
  emitExpr axis.dstStride

theorem emits_emitAxis (axis : AxisInfoAttr) :
    Emits (emitAxis axis) (axis.exprs.flatMap SymExpr.symbolNames)
      (fun table => writeAxis (axis.toWire table)) True :=
  ((emits_emitStr axis.name).bind ((emits_emitExpr axis.extent).bind
    ((emits_emitExpr axis.srcStride).bind (emits_emitExpr axis.dstStride)))).congr
    (by simp [AxisInfoAttr.exprs])
    (fun table => by simp only [writeAxis, AxisInfoAttr.toWire, List.append_assoc])
    fun _ => trivial

def PadFillAttr.exprs (pad : PadFillAttr) : List SymExpr := [pad.lo, pad.hi]

def PadFillAttr.toWire (table : List Name) (pad : PadFillAttr) : PadFill where
  dstAxis := pad.dstAxis
  lo := (pad.lo.toTree table).stream
  hi := (pad.hi.toTree table).stream
  fillType := wireElementType pad.value.type
  fillBits := pad.value.rawBits

def emitPad (pad : PadFillAttr) : Encode Unit := do
  emitU32 pad.dstAxis
  emitExpr pad.lo
  emitExpr pad.hi
  emitTypedValue pad.value

theorem emits_emitPad (pad : PadFillAttr) :
    Emits (emitPad pad) (pad.exprs.flatMap SymExpr.symbolNames)
      (fun table => writePadFill (pad.toWire table)) pad.value.Representable :=
  ((emits_emitBytes (writeU32 pad.dstAxis)).bind ((emits_emitExpr pad.lo).bind
    ((emits_emitExpr pad.hi).bind (emits_emitTypedValue pad.value)))).congr
    (by simp [PadFillAttr.exprs])
    (fun table => by simp only [writePadFill, PadFillAttr.toWire, List.append_assoc])
    fun hneeds => hneeds.2.2.2

def DivisibilityAttr.toWire (table : List Name) (entry : DivisibilityAttr) : Divisibility where
  expr := (entry.expr.toTree table).stream
  divisor := entry.divisor

def emitDivisibility (entry : DivisibilityAttr) : Encode Unit := do
  emitExpr entry.expr
  emitI64 entry.divisor

theorem emits_emitDivisibility (entry : DivisibilityAttr) :
    Emits (emitDivisibility entry) entry.expr.symbolNames
      (fun table => writeDivisibility (entry.toWire table)) True :=
  ((emits_emitExpr entry.expr).bind (emits_emitBytes (writeI64 entry.divisor))).congr
    (List.append_nil _) (fun _ => rfl) fun _ => trivial

def AlignmentAttr.toWire (entry : AlignmentAttr) : Alignment where
  axis := entry.axis
  bytes := entry.bytes

def emitAlignment (entry : AlignmentAttr) : Encode Unit := do
  emitU32 entry.axis
  emitI64 entry.bytes

theorem emits_emitAlignment (entry : AlignmentAttr) :
    Emits (emitAlignment entry) [] (fun _ => writeAlignment entry.toWire) True :=
  ((emits_emitBytes (writeU32 entry.axis)).bind (emits_emitBytes (writeI64 entry.bytes))).congr
    rfl (fun _ => rfl) fun _ => trivial

def emitFlag (flag : Bool) : Encode Unit := emitU8 (if flag then 1 else 0)

theorem emits_emitFlag (flag : Bool) : Emits (emitFlag flag) [] (fun _ => writeFlag flag) True := by
  cases flag <;> exact emits_emitBytes _

/-! ### The layout body -/

namespace PlanAttr

/-- The expressions of a plan in the order they are written. -/
def exprs (plan : PlanAttr) : List SymExpr :=
  plan.src.exprs ++ (plan.dst.exprs ++ (plan.axes.flatMap AxisInfoAttr.exprs ++
    (plan.padFill.flatMap PadFillAttr.exprs ++ plan.divisibility.map DivisibilityAttr.expr)))

/-- The symbol names of a plan, with repetitions, in the order they are written. -/
def symbolNames (plan : PlanAttr) : List Name := plan.exprs.flatMap SymExpr.symbolNames

/-- The element types of a plan. -/
def types (plan : PlanAttr) : List MlirType :=
  [plan.src.elementType, plan.dst.elementType] ++ plan.padFill.map fun pad => pad.value.type

/-- The plan over a symbol table, as the runtime should see it. -/
def toWireOver (table : List Name) (plan : PlanAttr) : RelocationPlan where
  symbols := table
  src := plan.src.toWire table
  dst := plan.dst.toWire table
  perm := plan.perm.map Int.toNat
  axes := plan.axes.map (AxisInfoAttr.toWire table)
  padFill := plan.padFill.map (PadFillAttr.toWire table)
  divisibility := plan.divisibility.map (DivisibilityAttr.toWire table)
  alignment := plan.alignment.map AlignmentAttr.toWire
  contiguity := plan.contiguity
  noCopy := plan.noCopy
  runtimePadCheck := plan.runtimePadCheck
  inverse := plan.inverse.results.map (affineStream table [])

/-- The first-use symbol table of a plan. -/
def symbolTable (plan : PlanAttr) : List Name := intern [] plan.symbolNames

/-- The plan over its first-use symbol table. -/
def toWire (plan : PlanAttr) : RelocationPlan := plan.toWireOver plan.symbolTable

/-- What the encoder insists on. -/
structure Encodable (plan : PlanAttr) : Prop where
  src : (wireElementType? plan.src.elementType).isSome
  dst : (wireElementType? plan.dst.elementType).isSome
  padFill : ∀ pad ∈ plan.padFill, pad.value.Representable
  inverse : ∀ result ∈ plan.inverse.results, result.Encodable []

end PlanAttr

/-- `emitLayoutBody`: sections 3 to 12. -/
def emitLayoutBody (plan : PlanAttr) : Encode Unit := do
  emitDesc plan.src
  emitDesc plan.dst
  emitVector (fun value : Int => emitU32 (value % 2 ^ 32).toNat) plan.perm
  emitVector emitAxis plan.axes
  emitVector emitPad plan.padFill
  emitVector emitDivisibility plan.divisibility
  emitVector emitAlignment plan.alignment
  emitVector emitFlag plan.contiguity
  emitFlag plan.noCopy
  emitFlag plan.runtimePadCheck
  emitU32 plan.inverse.numDims
  emitU32 plan.inverse.results.length
  emitEach (emitAffineExpr none) plan.inverse.results

/-- Every permutation entry is a 32-bit number already, so narrowing it loses
    nothing. -/
theorem emits_perm {perm : List Int} (hperm : ∀ value ∈ perm, 0 ≤ value ∧ value < 2 ^ 32) :
    Emits (emitVector (fun value : Int => emitU32 (value % 2 ^ 32).toNat) perm) []
      (fun _ => writeVector writeU32 (perm.map Int.toNat)) True := by
  refine (emits_emitVector (fun value : Int => emits_emitBytes (writeU32 (value % 2 ^ 32).toNat))
    perm).congr (List.flatMap_eq_nil_iff.mpr fun _ _ => rfl) (fun _ => ?_) fun _ => trivial
  simp only [writeVector, List.length_map, List.flatMap_map]
  refine congrArg _ (List.flatMap_congr fun value hvalue => ?_)
  rw [Int.emod_eq_of_lt (hperm value hvalue).1 (hperm value hvalue).2]

theorem affine_symbolNames_nil (expr : AffineExpr) : expr.symbolNames [] = [] := by
  induction expr with
  | dim position => rfl
  | symbol position => rfl
  | constant value => rfl
  | binary kind lhs rhs ihl ihr => simp only [AffineExpr.symbolNames, ihl, ihr, List.append_nil]

theorem emits_inverse (inverse : AffineMap) (hdims : inverse.numDims = inverse.results.length) :
    Emits (do emitU32 inverse.numDims
              emitU32 inverse.results.length
              emitEach (emitAffineExpr none) inverse.results) []
      (fun table => writeInverse (inverse.results.map (affineStream table [])))
      (∀ result ∈ inverse.results, result.Encodable []) := by
  refine ((emits_emitBytes (writeU32 inverse.numDims)).bind
    ((emits_emitBytes (writeU32 inverse.results.length)).bind
      (emits_emitEach (emits_emitAffineExpr none) inverse.results))).congr ?_ (fun table => ?_)
    fun hneeds => hneeds.2.2
  · exact List.flatMap_eq_nil_iff.mpr fun result _ => affine_symbolNames_nil result
  · simp only [writeInverse, List.length_map, List.flatMap_map, hdims, List.append_assoc,
      Option.getD_none]

theorem emits_emitLayoutBody {plan : PlanAttr}
    (hperm : ∀ value ∈ plan.perm, 0 ≤ value ∧ value < 2 ^ 32)
    (hdims : plan.inverse.numDims = plan.inverse.results.length) :
    Emits (emitLayoutBody plan) plan.symbolNames
      (fun table => writeLayoutBody (plan.toWireOver table)) plan.Encodable := by
  have haxes := (emits_emitVector emits_emitAxis plan.axes)
  have hpads := (emits_emitVector emits_emitPad plan.padFill)
  have hdivs := (emits_emitVector emits_emitDivisibility plan.divisibility)
  have haligns := (emits_emitVector emits_emitAlignment plan.alignment)
  have hflags := (emits_emitVector emits_emitFlag plan.contiguity)
  refine ((emits_emitDesc plan.src).bind ((emits_emitDesc plan.dst).bind ((emits_perm hperm).bind
    (haxes.bind (hpads.bind (hdivs.bind (haligns.bind (hflags.bind
      ((emits_emitFlag plan.noCopy).bind ((emits_emitFlag plan.runtimePadCheck).bind
        (emits_inverse plan.inverse hdims))))))))))).congr ?_ (fun table => ?_) ?_
  · simp [PlanAttr.symbolNames, PlanAttr.exprs, List.flatMap_append, List.flatMap_assoc,
      List.flatMap_map]
  · simp only [writeLayoutBody, writeShape, PlanAttr.toWireOver, writeVector, List.length_map,
      List.flatMap_map, List.append_assoc]
  · rintro ⟨hsrc, hdst, -, -, hpadFill, -, -, -, -, -, hinverse⟩
    exact ⟨hsrc, hdst, hpadFill, hinverse⟩

/-! ### The whole plan -/

/-- `assemble`: header, symbol table, body. -/
def assemble (version : Nat) (state : EncoderState) : List UInt8 :=
  writeHeader version state.symbols ++ state.body

/-- `encodePlan`: the bytes and the symbol names. -/
def encodePlan (plan : PlanAttr) : Except EncodeError (List UInt8 × List Name) :=
  if plan.src.elementType ≠ plan.dst.elementType then
    .error (.elementTypeChange plan.src.elementType plan.dst.elementType)
  else
    match emitLayoutBody plan ⟨[], []⟩ with
    | .ok (_, state) => .ok (assemble kWireFormatVersion state, state.symbols)
    | .error reason => .error reason

/-- What the encoder produces is the encoding of the plan over its first-use
    symbol table. -/
theorem encodePlan_eq_ok {plan : PlanAttr} {bytes : List UInt8} {names : List Name}
    (hperm : ∀ value ∈ plan.perm, 0 ≤ value ∧ value < 2 ^ 32)
    (hdims : plan.inverse.numDims = plan.inverse.results.length)
    (h : encodePlan plan = .ok (bytes, names)) :
    bytes = writePlan plan.toWire ∧ names = plan.symbolTable ∧ plan.Encodable := by
  unfold encodePlan at h
  split at h
  · cases h
  · split at h
    · rename_i state hrun
      cases h
      obtain ⟨hneeds, hsymbols, hbody⟩ := emits_emitLayoutBody hperm hdims ⟨[], []⟩ state hrun
      have hbody' := hbody state.symbols List.prefix_rfl
      rw [List.nil_append] at hbody'
      exact ⟨by rw [assemble, hbody', hsymbols]; rfl, hsymbols, hneeds⟩
    · cases h

end SymReloc
