import Mathlib.Algebra.Order.Ring.Int
import Mathlib.Logic.Basic
import Mathlib.Tactic.Common

/-!
# Binary floating-point formats

Bit patterns of the binary interchange formats, what they stand for, and the
rounding of an exact value to the nearest pattern, ties to even.

A finite magnitude is `num / den * 2 ^ exp` with natural `num` and `den`, which
covers products and quotients of finite values exactly.  Patterns are naturals,
so every operation here can be evaluated.
-/

namespace Ieee

/-- A binary interchange format: widths of the exponent and mantissa fields. -/
structure Format where
  expBits : Nat
  manBits : Nat
deriving DecidableEq, Repr

def Format.binary16 : Format := ⟨5, 10⟩
def Format.binary32 : Format := ⟨8, 23⟩
def Format.bfloat16 : Format := ⟨8, 7⟩

/-- What a pattern stands for; a finite value is `man * 2 ^ exp` with a sign. -/
inductive Datum where
  | nan
  | infinite (negative : Bool)
  | finite (negative : Bool) (man : Nat) (exp : Int)
deriving DecidableEq, Repr

namespace Format

/-- The pattern of the sign alone. -/
def signBit (format : Format) : Nat := 2 ^ (format.expBits + format.manBits)

/-- The pattern of positive infinity. -/
def infinity (format : Format) : Nat := (2 ^ format.expBits - 1) * 2 ^ format.manBits

/-- A quiet NaN without payload. -/
def quietNaN (format : Format) : Nat := format.infinity + 2 ^ (format.manBits - 1)

/-- The exponent of the smallest positive value. -/
def minExp (format : Format) : Int :=
  2 - 2 ^ (format.expBits - 1) - format.manBits

/-- What a pattern of the format stands for. -/
def decode (format : Format) (bits : Nat) : Datum :=
  let man := bits % 2 ^ format.manBits
  let exp := bits / 2 ^ format.manBits % 2 ^ format.expBits
  let negative := decide (bits / format.signBit % 2 = 1)
  if exp = 2 ^ format.expBits - 1 then
    if man = 0 then .infinite negative else .nan
  else if exp = 0 then .finite negative man format.minExp
  else .finite negative (2 ^ format.manBits + man) (format.minExp + exp - 1)

/-- A pattern of the format that is no number. -/
def isNaN (format : Format) (bits : Nat) : Bool := format.decode bits = .nan

def signed (format : Format) (negative : Bool) (magnitude : Nat) : Nat :=
  (if negative then format.signBit else 0) + magnitude

end Format

/-- The quotient of two naturals rounded to the nearest, ties to even. -/
def rneDiv (num den : Nat) : Nat :=
  let quotient := num / den
  let remainder := num % den
  if den < 2 * remainder ∨ (2 * remainder = den ∧ quotient % 2 = 1) then quotient + 1 else quotient

/-- `num * 2 ^ exp / den` rounded to the nearest natural, ties to even. -/
def rneScaled (num den : Nat) (exp : Int) : Nat :=
  if 0 ≤ exp then rneDiv (num * 2 ^ exp.toNat) den else rneDiv num (den * 2 ^ (-exp).toNat)

/-- The exponent of the largest power of two not above `num / den`. -/
def floorLog2 (num den : Nat) : Int :=
  let guess : Int := (num.log2 : Int) - den.log2
  let fits := if 0 ≤ guess then den * 2 ^ guess.toNat ≤ num else den ≤ num * 2 ^ (-guess).toNat
  if fits then guess else guess - 1

namespace Format

/-- The pattern nearest to the magnitude `num / den * 2 ^ exp`, ties to even, and
    infinity when that is out of range.  The unit in the last place fixes the
    exponent field; a carry out of the mantissa runs into it. -/
def roundMagnitude (format : Format) (num den : Nat) (exp : Int) : Nat :=
  if num = 0 then 0
  else
    let unit := max (floorLog2 num den + exp - format.manBits) format.minExp
    min ((unit - format.minExp).toNat * 2 ^ format.manBits + rneScaled num den (exp - unit))
      format.infinity

/-- The correctly rounded product. -/
def mul (format : Format) (lhs rhs : Nat) : Nat :=
  match format.decode lhs, format.decode rhs with
  | .nan, _ | _, .nan => format.quietNaN
  | .infinite sign, .infinite sign' => format.signed (sign ^^ sign') format.infinity
  | .infinite sign, .finite sign' man _ | .finite sign' man _, .infinite sign =>
      if man = 0 then format.quietNaN else format.signed (sign ^^ sign') format.infinity
  | .finite sign man exp, .finite sign' man' exp' =>
      format.signed (sign ^^ sign') (format.roundMagnitude (man * man') 1 (exp + exp'))

/-- The correctly rounded quotient. -/
def div (format : Format) (lhs rhs : Nat) : Nat :=
  match format.decode lhs, format.decode rhs with
  | .nan, _ | _, .nan | .infinite _, .infinite _ => format.quietNaN
  | .infinite sign, .finite sign' _ _ => format.signed (sign ^^ sign') format.infinity
  | .finite sign _ _, .infinite sign' => format.signed (sign ^^ sign') 0
  | .finite sign man exp, .finite sign' man' exp' =>
      if man' = 0 then
        if man = 0 then format.quietNaN else format.signed (sign ^^ sign') format.infinity
      else format.signed (sign ^^ sign') (format.roundMagnitude man man' (exp - exp'))

/-- An integer rounded to the format. -/
def ofInt (format : Format) (value : Int) : Nat :=
  format.signed (value < 0) (format.roundMagnitude value.natAbs 1 0)

end Format

/-- The order of two data, false when one is no number. -/
def Datum.less : Datum → Datum → Bool
  | .nan, _ | _, .nan => false
  | .infinite sign, .infinite sign' => sign && !sign'
  | .infinite sign, .finite .. => sign
  | .finite .., .infinite sign => !sign
  | .finite sign man exp, .finite sign' man' exp' =>
      let low := min exp exp'
      let signedMan (negative : Bool) (magnitude : Nat) : Int :=
        if negative then -(magnitude : Int) else magnitude
      signedMan sign (man * 2 ^ (exp - low).toNat) < signedMan sign' (man' * 2 ^ (exp' - low).toNat)

/-- A finite datum rounded to the nearest integer, ties to even. -/
def Datum.roundToIntegral : Datum → Option Int
  | .finite negative man exp =>
      some (if negative then -(rneScaled man 1 exp : Int) else rneScaled man 1 exp)
  | _ => none

end Ieee
