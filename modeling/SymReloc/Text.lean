import Mathlib.Data.List.Basic
import Mathlib.Tactic.Common

/-!
# ASCII text

Texts as bytes: the classes of letters and digits, and the decimal form of integers, which can be
read back where no digit follows it.
-/

namespace SymReloc.Text

/-- The bytes of an ASCII text. -/
def ascii (text : String) : List UInt8 := text.toList.map fun c => UInt8.ofNat c.toNat

def isAlpha (byte : UInt8) : Bool := (65 ≤ byte && byte ≤ 90) || (97 ≤ byte && byte ≤ 122)

def isDigit (byte : UInt8) : Bool := 48 ≤ byte && byte ≤ 57

/-- `isAlnum` or an underscore. -/
def isWord (byte : UInt8) : Bool := isAlpha byte || isDigit byte || byte == 95

def digits (value : Nat) : List UInt8 :=
  (Nat.toDigits 10 value).map fun digit => UInt8.ofNat digit.toNat

/-- An integer in decimal. -/
def decimal (value : Int) : List UInt8 :=
  if value < 0 then 45 :: digits value.natAbs else digits value.natAbs

/-! ### Reading digits -/

theorem isDigit_ofNat {digit : Char} (h : digit.isDigit = true) :
    isDigit (UInt8.ofNat digit.toNat) = true := by
  obtain ⟨hlo, hhi⟩ : 48 ≤ digit.toNat ∧ digit.toNat ≤ 57 := by
    simpa [Char.isDigit, UInt32.le_iff_toNat_le] using h
  have hsame : (UInt8.ofNat digit.toNat).toNat = digit.toNat := by
    rw [UInt8.toNat_ofNat']
    omega
  simp only [isDigit, Bool.and_eq_true, decide_eq_true_eq, UInt8.le_iff_toNat_le, hsame]
  exact ⟨hlo, hhi⟩

theorem isDigit_of_mem_digits {value : Nat} {byte : UInt8} (h : byte ∈ digits value) :
    isDigit byte = true := by
  obtain ⟨digit, hdigit, rfl⟩ := List.mem_map.1 h
  exact isDigit_ofNat (Nat.isDigit_of_mem_toDigits (by decide) (by decide) hdigit)

theorem digits_ne_nil (value : Nat) : digits value ≠ [] := by
  simp [digits, Nat.toDigits_ne_nil]

def digitsValue (run : List UInt8) : Nat :=
  run.foldl (fun value digit => 10 * value + (digit.toNat - 48)) 0

theorem digitsValue_digits (value : Nat) : digitsValue (digits value) = value := by
  have hread : Nat.ofDigitChars 10 (Nat.toDigits 10 value) 0 = value :=
    Nat.ofDigitChars_toDigits (by decide) (by decide)
  have hsame : ∀ (chars : List Char) (start : Nat), (∀ c ∈ chars, c.isDigit = true) →
      (chars.map fun digit => UInt8.ofNat digit.toNat).foldl
          (fun value digit => 10 * value + (digit.toNat - 48)) start =
        Nat.ofDigitChars 10 chars start := by
    intro chars
    induction chars with
    | nil => intro start _; rfl
    | cons c chars ih =>
        intro start hchars
        have hc : c.toNat ≤ 57 := by
          have hdigit := hchars c List.mem_cons_self
          simp only [Char.isDigit, Bool.and_eq_true, decide_eq_true_eq,
            UInt32.le_iff_toNat_le] at hdigit
          exact hdigit.2
        have hbyte : (UInt8.ofNat c.toNat).toNat = c.toNat := by
          rw [UInt8.toNat_ofNat']
          omega
        rw [List.map_cons, List.foldl_cons, hbyte,
          ih _ fun d hd => hchars d (List.mem_cons_of_mem _ hd)]
        rfl
  rw [digitsValue, digits, hsame _ _ fun c hc =>
    Nat.isDigit_of_mem_toDigits (by decide) (by decide) hc, hread]

theorem isWord_of_isAlpha {byte : UInt8} (h : isAlpha byte = true ∨ byte = 95) :
    isWord byte = true := by
  rcases h with h | rfl
  · simp [isWord, h]
  · decide

end SymReloc.Text
