import SymReloc.Ieee

/-!
# Conversions and quantization of single elements

The scalar conversions work on the bits of a `float`, which are the naturals
below 2^32 here; half-precision results are naturals below 2^16.
-/

namespace SymReloc

open Ieee

namespace Quant

/-- `narrowF32F16` (`f32ToF16Scalar`): nearest even by adding to the bits, with
    subnormal results shifted out of the full mantissa. -/
def narrowF32F16 (bits : Nat) : Nat :=
  let sign := bits / 2 ^ 31 % 2 * 0x8000
  let x := bits % 2 ^ 31
  if 0x7f800000 < x then
    -- NaN: the quiet bit and the truncated payload
    sign + (0x7e00 ||| x / 2 ^ 13 % 2 ^ 10)
  else if 0x477ff000 ≤ x then sign + 0x7c00
  else if 0x38800000 ≤ x then
    let r := x + 0xfff + x / 2 ^ 13 % 2
    sign + (r - 0x38000000) / 2 ^ 13
  else if x ≤ 0x33000000 then sign
  else
    let shift := 126 - x / 2 ^ 23
    let mant := x % 2 ^ 23 + 0x800000
    let r := mant / 2 ^ shift
    let rem := mant % 2 ^ shift
    let half := 2 ^ (shift - 1)
    sign + (if half < rem ∨ (rem = half ∧ r % 2 = 1) then r + 1 else r)

/-- `narrowF32BF16`: nearest even on the discarded half. -/
def narrowF32BF16 (bits : Nat) : Nat :=
  if 0x7f800000 < bits % 2 ^ 31 then bits / 2 ^ 16 ||| 0x0040
  else
    let lsb := bits / 2 ^ 16 % 2
    (bits + 0x7fff + lsb) % 2 ^ 32 / 2 ^ 16

def widenBF16F32 (bits : Nat) : Nat := bits * 2 ^ 16

/-- The number of left shifts that bring bit 10 of a subnormal mantissa up, by
    the loop of the source. -/
def renormalize : Nat → Nat → Nat → Nat × Nat
  | 0, mantissa, shifts => (mantissa, shifts)
  | fuel + 1, mantissa, shifts =>
      if mantissa / 2 ^ 10 % 2 = 0 then renormalize fuel (mantissa * 2) (shifts + 1)
      else (mantissa, shifts)

/-- `widenF16F32`.  A nonzero subnormal mantissa needs at most ten shifts. -/
def widenF16F32 (bits : Nat) : Nat :=
  let sign := bits / 2 ^ 15 % 2 * 2 ^ 31
  let exponent := bits / 2 ^ 10 % 2 ^ 5
  let mantissa := bits % 2 ^ 10
  if exponent = 0 then
    if mantissa = 0 then sign
    else
      let (mantissa, shifts) := renormalize 10 mantissa 0
      sign + (127 - 14 - shifts) * 2 ^ 23 + mantissa % 2 ^ 10 * 2 ^ 13
  else if exponent = 31 then sign + 0x7f800000 + mantissa * 2 ^ 13
  else sign + (exponent + 112) * 2 ^ 23 + mantissa * 2 ^ 13

/-- `std::fmax` of two `float`s: a NaN operand gives way to the other. -/
def fmax (lhs rhs : Nat) : Nat :=
  if Format.binary32.isNaN lhs then rhs
  else if Format.binary32.isNaN rhs then lhs
  else if (Format.binary32.decode lhs).less (Format.binary32.decode rhs) then rhs else lhs

def fmin (lhs rhs : Nat) : Nat :=
  if Format.binary32.isNaN lhs then rhs
  else if Format.binary32.isNaN rhs then lhs
  else if (Format.binary32.decode rhs).less (Format.binary32.decode lhs) then rhs else lhs

/-- The patterns of −128.0, 127.0 and 1.0. -/
def f32Lowest : Nat := 0xc3000000
def f32Highest : Nat := 0x42fe0000
def f32One : Nat := 0x3f800000

/-- `quantOne`: scale, clamp (a NaN becomes −128), round to nearest even. -/
def quantizeOneF32S8 (x invScale : Nat) : Int :=
  let y := Format.binary32.mul x invScale
  let y := fmax y f32Lowest
  let y := fmin y f32Highest
  -- after the clamp the value is finite
  ((Format.binary32.decode y).roundToIntegral).getD 0

end Quant

end SymReloc
