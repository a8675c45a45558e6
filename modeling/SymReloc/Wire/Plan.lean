import SymReloc.Codec
import SymReloc.Sym.Expr
import SymReloc.Word

/-!
# The decoded plan

`RelocationPlan` mirrors the wire sections one to one; expressions stay the
postfix streams of the wire.  `TypedRelocationPlan` adds value stages and typed
fills, `IndexedRelocationPlan` is the row-selection form.

Operands of a token live in the token, so a binary operator cannot carry one.
Counts and 32-bit fields are `Nat`, 64-bit signed fields `Int`.
-/

namespace SymReloc

/-! ### Expression streams -/

/-- The binary opcodes of the stack machine. -/
inductive StackOp where
  | add
  | sub
  | mul
  | floorDiv
  | mod
deriving DecidableEq, Repr

/-- One operation of a stream.  `pushDim` names a destination coordinate. -/
inductive ExprToken where
  | pushSym (index : Nat)
  | pushConst (value : Int)
  | pushDim (index : Nat)
  | apply (op : StackOp)
deriving DecidableEq, Repr

/-- A postfix stream. -/
abbrev ExprStream := List ExprToken

/-- The stack depth after running a stream, none if an operator underflows. -/
def ExprStream.depthFrom : ExprStream → Nat → Option Nat
  | [], depth => some depth
  | .apply _ :: rest, depth => if depth < 2 then none else ExprStream.depthFrom rest (depth - 1)
  | _ :: rest, depth => ExprStream.depthFrom rest (depth + 1)

/-- The depth one operation leaves, if it has enough operands. -/
def ExprToken.depthAfter : ExprToken → Nat → Option Nat
  | .apply _, depth => if depth < 2 then none else some (depth - 1)
  | _, depth => some (depth + 1)

theorem ExprStream.depthFrom_cons (token : ExprToken) (rest : ExprStream) (depth : Nat) :
    ExprStream.depthFrom (token :: rest) depth =
      (token.depthAfter depth).bind (ExprStream.depthFrom rest) := by
  cases token with
  | apply op =>
      simp only [ExprStream.depthFrom, ExprToken.depthAfter]
      split <;> rfl
  | _ => rfl

/-- Plan streams push symbols, inverse streams destination coordinates, channel
    streams both. -/
inductive ExprContext where
  | plan
  | inverse
  | channel
deriving DecidableEq, Repr

/-- What a stream may refer to. -/
structure ExprScope where
  context : ExprContext
  symbolCount : Nat
  dimCount : Nat
deriving DecidableEq, Repr

def ExprScope.plan (symbolCount : Nat) : ExprScope := ⟨.plan, symbolCount, 0⟩

/-- The operand of a token is legal in its scope and fits the wire. -/
def ExprToken.WellFormed (scope : ExprScope) : ExprToken → Prop
  | .pushSym index => scope.context ≠ .inverse ∧ index < scope.symbolCount ∧ index < 2 ^ 32
  | .pushConst value => FitsI64 value
  | .pushDim index => scope.context ≠ .plan ∧ index < scope.dimCount ∧ index < 2 ^ 32
  | .apply _ => True

/-- A stream that names only what its scope has and leaves exactly one value. -/
structure ExprStream.WellFormed (scope : ExprScope) (stream : ExprStream) : Prop where
  count_lt : stream.length < 2 ^ 32
  tokens : ∀ token ∈ stream, token.WellFormed scope
  depth : ExprStream.depthFrom stream 0 = some 1

/-! ### Types and descriptors -/

inductive ElementTypeKind where
  | float
  | bfloat
  | integer
  | index
deriving DecidableEq, Repr

structure ElementType where
  kind : ElementTypeKind
  bitwidth : Nat
deriving DecidableEq, Repr

/-- The pairs of kind and width the format has. -/
def ElementType.Valid : ElementType → Prop
  | ⟨.float, width⟩ => width = 16 ∨ width = 32 ∨ width = 64
  | ⟨.bfloat, width⟩ => width = 16
  | ⟨.integer, width⟩ => 1 ≤ width ∧ width ≤ 64
  | ⟨.index, width⟩ => width = 64

instance : ∀ type : ElementType, Decidable type.Valid
  | ⟨.float, _⟩ => inferInstanceAs (Decidable (_ ∨ _ ∨ _))
  | ⟨.bfloat, _⟩ => inferInstanceAs (Decidable (_ = _))
  | ⟨.integer, _⟩ => inferInstanceAs (Decidable (_ ∧ _))
  | ⟨.index, _⟩ => inferInstanceAs (Decidable (_ = _))

/-- A symbolic tensor descriptor; no strides means row-major. -/
structure TensorDesc where
  extents : List ExprStream
  strides : List ExprStream
  offset : ExprStream
  elementType : ElementType
deriving DecidableEq, Repr

/-- One plan axis in destination order. -/
structure Axis where
  name : Name
  extent : ExprStream
  srcStride : ExprStream
  dstStride : ExprStream
deriving DecidableEq, Repr

/-- A pad of one axis; `fillBits` is the value zero-extended to 64 bits. -/
structure PadFill where
  dstAxis : Nat
  lo : ExprStream
  hi : ExprStream
  fillType : ElementType
  fillBits : Nat
deriving DecidableEq, Repr

structure Divisibility where
  expr : ExprStream
  divisor : Int
deriving DecidableEq, Repr

structure Alignment where
  axis : Nat
  bytes : Int
deriving DecidableEq, Repr

/-- Everything between the symbol table and the end of a v0 plan. -/
structure RelocationPlan where
  symbols : List Name
  src : TensorDesc
  dst : TensorDesc
  perm : List Nat
  axes : List Axis
  padFill : List PadFill
  divisibility : List Divisibility
  alignment : List Alignment
  contiguity : List Bool
  noCopy : Bool
  runtimePadCheck : Bool
  inverse : List ExprStream
deriving DecidableEq, Repr

/-! ### Typed plans -/

inductive ValueTransformKind where
  | cast
  | quantize
  | dequantize
deriving DecidableEq, Repr

inductive NumericPolicyKind where
  | ieeeRne
  | exact
  | symmetricRne
  | affine
deriving DecidableEq, Repr

inductive Signedness where
  | signless
  | signed
  | unsigned
deriving DecidableEq, Repr

structure StageType where
  type : ElementType
  signedness : Signedness
deriving DecidableEq, Repr

/-- A quantization parameter as declared: absent, an inline constant given by its
    bits, or a runtime binding.  The rank is 0 per tensor and 1 per channel. -/
inductive StageParam where
  | none
  | inline (rank : Nat) (elementType : ElementType) (inlineBits : List Nat)
  | binding (bindingName : Name) (bindingExtents : List ExprStream) (elementType : ElementType)
deriving DecidableEq, Repr

/-- One typed value stage.  `channel` is absent when the source has no channel
    map; the axis is −1 per tensor. -/
structure ValueStage where
  transform : ValueTransformKind
  policy : NumericPolicyKind
  input : StageType
  output : StageType
  shape : List ExprStream
  scale : StageParam
  zeroPoint : StageParam
  axis : Int
  channel : Option ExprStream
deriving DecidableEq, Repr

/-- A pad fill as the program wrote it, with the stage it enters at. -/
structure TypedFill where
  dstAxis : Nat
  stage : Nat
  type : ElementType
  bits : Nat
deriving DecidableEq, Repr

/-- A typed plan; the layout shares the symbol table. -/
structure TypedRelocationPlan where
  symbols : List Name
  source : TensorDesc
  result : TensorDesc
  layout : RelocationPlan
  stages : List ValueStage
  fills : List TypedFill
deriving DecidableEq, Repr

/-- A row selection followed by an optional cast.  The policy is the byte itself:
    the decoder stores it before it is checked. -/
structure IndexedRelocationPlan where
  symbols : List Name
  source : TensorDesc
  indices : TensorDesc
  result : TensorDesc
  axis : Nat
  policy : UInt8
deriving DecidableEq, Repr

/-! ### Bytes of the enumerations -/

def ElementTypeKind.bytes : ByteTable ElementTypeKind where
  toByte
    | .float => 0
    | .bfloat => 1
    | .integer => 2
    | .index => 3
  ofByte?
    | 0 => some .float
    | 1 => some .bfloat
    | 2 => some .integer
    | 3 => some .index
    | _ => none
  ofByte?_toByte kind := by cases kind <;> rfl
  toByte_of_ofByte? byte kind h := by split at h <;> cases h <;> rfl

def ValueTransformKind.bytes : ByteTable ValueTransformKind where
  toByte
    | .cast => 0
    | .quantize => 1
    | .dequantize => 2
  ofByte?
    | 0 => some .cast
    | 1 => some .quantize
    | 2 => some .dequantize
    | _ => none
  ofByte?_toByte kind := by cases kind <;> rfl
  toByte_of_ofByte? byte kind h := by split at h <;> cases h <;> rfl

def NumericPolicyKind.bytes : ByteTable NumericPolicyKind where
  toByte
    | .ieeeRne => 0
    | .exact => 1
    | .symmetricRne => 2
    | .affine => 3
  ofByte?
    | 0 => some .ieeeRne
    | 1 => some .exact
    | 2 => some .symmetricRne
    | 3 => some .affine
    | _ => none
  ofByte?_toByte kind := by cases kind <;> rfl
  toByte_of_ofByte? byte kind h := by split at h <;> cases h <;> rfl

def Signedness.bytes : ByteTable Signedness where
  toByte
    | .signless => 0
    | .signed => 1
    | .unsigned => 2
  ofByte?
    | 0 => some .signless
    | 1 => some .signed
    | 2 => some .unsigned
    | _ => none
  ofByte?_toByte kind := by cases kind <;> rfl
  toByte_of_ofByte? byte kind h := by split at h <;> cases h <;> rfl

def StackOp.bytes : ByteTable StackOp where
  toByte
    | .add => 2
    | .sub => 3
    | .mul => 4
    | .floorDiv => 5
    | .mod => 6
  ofByte?
    | 2 => some .add
    | 3 => some .sub
    | 4 => some .mul
    | 5 => some .floorDiv
    | 6 => some .mod
    | _ => none
  ofByte?_toByte kind := by cases kind <;> rfl
  toByte_of_ofByte? byte kind h := by split at h <;> cases h <;> rfl

end SymReloc
