import Mathlib.Data.Fin.VecNotation
import Mathlib.Data.Fintype.Basic
import Mathlib.Tactic.FinCases

/-!
# Registers of eight lanes

The shuffles of a 256-bit register with eight lanes of 32 bits, as the processor's manual has
them: an unpack interleaves the low or the high lanes of each 128-bit half, of one lane or of
two at a time, and a permutation of the halves picks each half of its result from either
operand.  `transpose` is the network of three stages that turns eight rows into eight columns.
-/

namespace SymReloc.Lanes

universe u

/-- Eight lanes, the lowest first. -/
abbrev Register (α : Type u) := Fin 8 → α

variable {α : Type u}

/-! ### Shuffles -/

def unpackLow32 (a b : Register α) : Register α := ![a 0, b 0, a 1, b 1, a 4, b 4, a 5, b 5]

def unpackHigh32 (a b : Register α) : Register α := ![a 2, b 2, a 3, b 3, a 6, b 6, a 7, b 7]

/-- Two lanes are one of 64 bits. -/
def unpackLow64 (a b : Register α) : Register α := ![a 0, a 1, b 0, b 1, a 4, a 5, b 4, b 5]

def unpackHigh64 (a b : Register α) : Register α := ![a 2, a 3, b 2, b 3, a 6, a 7, b 6, b 7]

/-- A half, by its selector: the low or the high one of the first or of the second operand. -/
def half (a b : Register α) (selector : Nat) (lane : Fin 4) : α :=
  match selector % 4 with
  | 0 => a ⟨lane, by omega⟩
  | 1 => a ⟨4 + lane, by omega⟩
  | 2 => b ⟨lane, by omega⟩
  | _ => b ⟨4 + lane, by omega⟩

/-- The selectors are the low bits of the two digits of the control byte; the bits that clear a
    half are not set. -/
def permuteHalves (a b : Register α) (control : Nat) : Register α := fun lane =>
  if h : lane.val < 4 then half a b (control % 16) ⟨lane, h⟩
  else half a b (control / 16) ⟨lane - 4, by omega⟩

/-! ### The network -/

def pairs (input : Fin 8 → Register α) : Fin 8 → Register α :=
  ![unpackLow32 (input 0) (input 1), unpackHigh32 (input 0) (input 1),
    unpackLow32 (input 2) (input 3), unpackHigh32 (input 2) (input 3),
    unpackLow32 (input 4) (input 5), unpackHigh32 (input 4) (input 5),
    unpackLow32 (input 6) (input 7), unpackHigh32 (input 6) (input 7)]

def quads (pairs : Fin 8 → Register α) : Fin 8 → Register α :=
  ![unpackLow64 (pairs 0) (pairs 2), unpackHigh64 (pairs 0) (pairs 2),
    unpackLow64 (pairs 1) (pairs 3), unpackHigh64 (pairs 1) (pairs 3),
    unpackLow64 (pairs 4) (pairs 6), unpackHigh64 (pairs 4) (pairs 6),
    unpackLow64 (pairs 5) (pairs 7), unpackHigh64 (pairs 5) (pairs 7)]

/-- The registers that are stored: the low halves in the first four rows. -/
def rows (quads : Fin 8 → Register α) : Fin 8 → Register α :=
  ![permuteHalves (quads 0) (quads 4) 0x20, permuteHalves (quads 1) (quads 5) 0x20,
    permuteHalves (quads 2) (quads 6) 0x20, permuteHalves (quads 3) (quads 7) 0x20,
    permuteHalves (quads 0) (quads 4) 0x31, permuteHalves (quads 1) (quads 5) 0x31,
    permuteHalves (quads 2) (quads 6) 0x31, permuteHalves (quads 3) (quads 7) 0x31]

def transpose (input : Fin 8 → Register α) : Fin 8 → Register α := rows (quads (pairs input))

/-- The rows in the order of the stores: those whose quads share a half come together. -/
def storeOrder : List (Fin 8) := [0, 4, 1, 5, 2, 6, 3, 7]

/-- The network exchanges registers and lanes. -/
theorem transpose_apply (input : Fin 8 → Register α) (i j : Fin 8) :
    transpose input i j = input j i := by
  fin_cases i <;> fin_cases j <;> rfl

end SymReloc.Lanes
