import SymReloc.Runtime.Quant
import SymReloc.Wire.Plan

/-!
# Reference arithmetic of value stages

Element widths of wire types, the sign of an integer element, and the fold of one
constant through one value stage.
-/

namespace SymReloc

open Ieee Quant

/-- `typed::byteWidth`: 0 when the width is no positive multiple of 8. -/
def byteWidth (type : ElementType) : Nat :=
  if type.bitwidth = 0 ∨ type.bitwidth % 8 ≠ 0 then 0 else type.bitwidth / 8

def isFloatWidth (type : ElementType) (width : Nat) : Prop :=
  type.kind = .float ∧ type.bitwidth = width

def isInt8 (type : ElementType) : Prop := type.kind = .integer ∧ type.bitwidth = 8

def isBFloat16 (type : ElementType) : Prop := type.kind = .bfloat ∧ type.bitwidth = 16

instance (type : ElementType) (width : Nat) : Decidable (isFloatWidth type width) :=
  inferInstanceAs (Decidable (_ ∧ _))
instance (type : ElementType) : Decidable (isInt8 type) := inferInstanceAs (Decidable (_ ∧ _))
instance (type : ElementType) : Decidable (isBFloat16 type) := inferInstanceAs (Decidable (_ ∧ _))

/-- `signExtend`: the low `bitwidth` bits as two's complement. -/
def signExtendBits (bits bitwidth : Nat) : Int :=
  if 64 ≤ bitwidth then wrap64 bits
  else
    let value := bits % 2 ^ bitwidth
    if value / 2 ^ (bitwidth - 1) % 2 = 1 then (value : Int) - 2 ^ bitwidth else value

/-- The finite patterns above zero. -/
def isFinitePositive (bits : Nat) : Prop :=
  match Format.binary32.decode bits with
  | .finite negative man _ => negative = false ∧ man ≠ 0
  | _ => False

instance (bits : Nat) : Decidable (isFinitePositive bits) := by
  unfold isFinitePositive
  split <;> infer_instance

/-- The single value of an inline per-tensor parameter. -/
def perTensorBits : StageParam → Option Nat
  | .inline 0 _ (bits :: _) => some bits
  | _ => none

/-- `typed::foldFill`: the bits of a constant after one stage, none when the stage
    has no single answer for it. -/
def foldFill (bits : Nat) (type : ElementType) (stage : ValueStage) : Option Nat :=
  if type ≠ stage.input.type then none
  else match stage.transform with
  | .cast =>
      if isFloatWidth type 32 ∧ isFloatWidth stage.output.type 16 then
        some (narrowF32F16 (bits % 2 ^ 32))
      else if isFloatWidth type 16 ∧ isFloatWidth stage.output.type 32 then
        some (widenF16F32 (bits % 2 ^ 16))
      else if isFloatWidth type 32 ∧ isBFloat16 stage.output.type then
        some (narrowF32BF16 (bits % 2 ^ 32))
      else if isBFloat16 type ∧ isFloatWidth stage.output.type 32 then
        some (widenBF16F32 (bits % 2 ^ 16))
      else none
  | .quantize =>
      if ¬ isFloatWidth type 32 ∨ ¬ isInt8 stage.output.type ∨ 0 ≤ stage.axis then none
      else do
        let scale ← perTensorBits stage.scale
        let inv := Format.binary32.div f32One (scale % 2 ^ 32)
        let q := quantizeOneF32S8 (bits % 2 ^ 32) inv
        pure (q % 2 ^ 8).toNat
  | .dequantize =>
      if ¬ isInt8 type ∨ ¬ isFloatWidth stage.output.type 32 ∨ 0 ≤ stage.axis then none
      else do
        let scale ← perTensorBits stage.scale
        let zeroPoint ← match stage.zeroPoint with
          | .inline _ elementType _ => do
              let bits ← perTensorBits stage.zeroPoint
              pure (signExtendBits bits elementType.bitwidth)
          | .none => pure 0
          | .binding .. => none
        let q := signExtendBits bits 8
        pure (Format.binary32.mul (Format.binary32.ofInt (q - zeroPoint)) (scale % 2 ^ 32))

end SymReloc
