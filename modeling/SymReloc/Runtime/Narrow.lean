import SymReloc.Rounding
import SymReloc.Runtime.Quant

/-!
# Half precision

Narrowing a `float` to binary16 or bfloat16 is the rounding of the formats to nearest even, and
widening is exact, so that narrowing takes every widened number back.
-/

namespace SymReloc

open Ieee Format

namespace Quant

/-! ### The three formats -/

theorem binary32_signBit : Format.binary32.signBit = 2 ^ 31 := by decide

theorem binary32_infinity : Format.binary32.infinity = 0x7f800000 := by decide

theorem binary16_signBit : Format.binary16.signBit = 2 ^ 15 := by decide

theorem binary16_infinity : Format.binary16.infinity = 0x7c00 := by decide

theorem bfloat16_signBit : Format.bfloat16.signBit = 2 ^ 15 := by decide

theorem bfloat16_infinity : Format.bfloat16.infinity = 0x7f80 := by decide

theorem binary16_minExp : Format.binary16.minExp = -149 + (125 : Nat) := by decide

theorem bfloat16_minExp : Format.bfloat16.minExp = -149 + (16 : Nat) := by decide

theorem steps_binary32 {x : Nat} (h : 0x800000 ≤ x) :
    Format.binary32.steps x = (x % 2 ^ 23 + 0x800000) * 2 ^ (x / 2 ^ 23 - 1) := by
  have hexp : x / 2 ^ 23 ≠ 0 := by omega
  rw [Nat.add_comm]
  exact if_neg hexp

theorem steps_binary16 {x : Nat} (h : 0x400 ≤ x) :
    Format.binary16.steps x = (2 ^ 10 + x % 2 ^ 10) * 2 ^ (x / 2 ^ 10 - 1) := by
  have hexp : x / 2 ^ 10 ≠ 0 := by omega
  exact if_neg hexp

theorem magnitude_binary32 (x : Nat) :
    Format.binary32.magnitude x = (Format.binary32.steps x : ℚ) * 2 ^ (-149 : Int) := rfl

theorem tiesToEven_mul {low rest gap unit : Nat} (hunit : 0 < unit) :
    tiesToEven low (rest * unit) (gap * unit) = tiesToEven low rest gap := by
  have hlt : gap * unit < 2 * (rest * unit) ↔ gap < 2 * rest := by
    rw [← Nat.mul_assoc, Nat.mul_lt_mul_right hunit]
  have heq : 2 * (rest * unit) = gap * unit ↔ 2 * rest = gap := by
    rw [← Nat.mul_assoc, Nat.mul_left_inj hunit.ne']
  simp only [tiesToEven, hlt, heq]

theorem tiesToEven_half {low rest shift : Nat} (hshift : 0 < shift) :
    (if 2 ^ (shift - 1) < rest ∨ (rest = 2 ^ (shift - 1) ∧ low % 2 = 1) then low + 1 else low) =
      tiesToEven low rest (2 ^ shift) := by
  have hdouble : 2 ^ shift = 2 * 2 ^ (shift - 1) := by
    rw [← pow_succ', Nat.sub_add_cancel hshift]
  have hlt : 2 * 2 ^ (shift - 1) < 2 * rest ↔ 2 ^ (shift - 1) < rest := by omega
  have heq : 2 * rest = 2 * 2 ^ (shift - 1) ↔ rest = 2 ^ (shift - 1) := by omega
  simp only [tiesToEven, hdouble, hlt, heq]

/-! ### binary16 -/

/-- A normal result: the thirteen bits that are dropped decide, and the carry runs into the
    exponent. -/
theorem nearestEven_normal {x : Nat} (hlo : 0x38800000 ≤ x) (hhi : x < 0x477ff000) :
    Format.binary16.NearestEven (Format.binary32.magnitude x)
      ((x + 0xfff + x / 2 ^ 13 % 2 - 0x38000000) / 2 ^ 13) := by
  obtain ⟨k, hexp⟩ : ∃ k, x / 2 ^ 23 = k + 113 := ⟨x / 2 ^ 23 - 113, by omega⟩
  obtain ⟨low, hlow⟩ : ∃ low, x / 2 ^ 13 = low + 114688 := ⟨x / 2 ^ 13 - 114688, by omega⟩
  have hlowexp : low / 2 ^ 10 = k + 1 := by omega
  have hman : low % 2 ^ 10 * 2 ^ 13 + x % 2 ^ 13 = x % 2 ^ 23 := by omega
  have hround : (x + 0xfff + x / 2 ^ 13 % 2 - 0x38000000) / 2 ^ 13 =
      tiesToEven low (x % 2 ^ 13 * 2 ^ (k + 112)) (2 ^ 13 * 2 ^ (k + 112)) := by
    rw [tiesToEven_mul (by positivity)]
    unfold tiesToEven
    split <;> omega
  rw [hround]
  have hlt : low < Format.binary16.infinity := by
    rw [binary16_infinity]
    omega
  refine nearestEven_of_between binary16_minExp hlt ?_ ?_ ?_
  · show 2 ^ (low / 2 ^ 10 - 1) * 2 ^ 125 = _
    rw [hlowexp, ← pow_add, ← pow_add, show k + 1 - 1 + 125 = 13 + (k + 112) by omega]
  · exact Nat.mul_lt_mul_of_pos_right (Nat.mod_lt _ (by decide)) (by positivity)
  · rw [magnitude_binary32, steps_binary32 (by omega), steps_binary16 (by omega), hlowexp, hexp,
      ← hman, show k + 113 - 1 = k + 112 by omega, pow_add]
    push_cast
    ring

/-- A subnormal result: the full mantissa is shifted out, and a carry gives the smallest
    normal number. -/
theorem nearestEven_subnormal {x : Nat} (hlo : 0x33000000 < x) (hhi : x < 0x38800000) :
    Format.binary16.NearestEven (Format.binary32.magnitude x)
      (tiesToEven ((x % 2 ^ 23 + 0x800000) / 2 ^ (126 - x / 2 ^ 23))
        ((x % 2 ^ 23 + 0x800000) % 2 ^ (126 - x / 2 ^ 23)) (2 ^ (126 - x / 2 ^ 23))) := by
  obtain ⟨k, hk, hexp⟩ : ∃ k ≤ 10, x / 2 ^ 23 = k + 102 := ⟨x / 2 ^ 23 - 102, by omega, by omega⟩
  have hshift : 126 - x / 2 ^ 23 = 24 - k := by omega
  have hscale : 2 ^ (24 - k) * 2 ^ (k + 101) = 2 ^ 125 := by
    rw [← pow_add, show 24 - k + (k + 101) = 125 by omega]
  rw [hshift]
  obtain ⟨mant, hmant⟩ : ∃ mant, x % 2 ^ 23 + 0x800000 = mant := ⟨_, rfl⟩
  have hsmall : mant / 2 ^ (24 - k) < 2 ^ 10 := by
    rw [Nat.div_lt_iff_lt_mul (by positivity), ← pow_add]
    calc mant < 2 ^ 24 := by omega
      _ ≤ 2 ^ (10 + (24 - k)) := Nat.pow_le_pow_right (by decide) (by omega)
  have hsplit := Nat.div_add_mod mant (2 ^ (24 - k))
  have hrest := Nat.mod_lt mant (y := 2 ^ (24 - k)) (by positivity)
  rw [hmant, ← tiesToEven_mul (by positivity : 0 < 2 ^ (k + 101))]
  refine nearestEven_of_between binary16_minExp (by rw [binary16_infinity]; omega) ?_ ?_ ?_
  · show 2 ^ (mant / 2 ^ (24 - k) / 2 ^ 10 - 1) * 2 ^ 125 = _
    rw [Nat.div_eq_of_lt hsmall, hscale, Nat.zero_sub, pow_zero, Nat.one_mul]
  · exact Nat.mul_lt_mul_of_pos_right hrest (by positivity)
  · rw [magnitude_binary32, steps_binary32 (by omega), steps_of_lt hsmall, hexp, ← hscale,
      hmant, show k + 102 - 1 = k + 101 by omega, ← Nat.mul_assoc, ← Nat.add_mul,
      Nat.mul_comm (mant / _), hsplit]

/-- At most half of the smallest positive number is rounded to zero. -/
theorem nearestEven_zero {x : Nat} (h : x ≤ 0x33000000) :
    Format.binary16.NearestEven (Format.binary32.magnitude x) 0 := by
  have hhalf : Format.binary32.steps x ≤ 2 ^ 124 := by
    have hmono : Format.binary32.steps x ≤ Format.binary32.steps 0x33000000 :=
      strictMono_steps.monotone h
    rwa [steps_binary32 (by decide : 0x800000 ≤ 0x33000000)] at hmono
  have hround : tiesToEven 0 (Format.binary32.steps x) (2 ^ 125) = 0 := by
    unfold tiesToEven
    rw [if_neg]
    rintro (hgt | ⟨-, hodd⟩)
    · omega
    · exact absurd hodd (by decide)
  have hgap : 2 ^ (0 / 2 ^ Format.binary16.manBits - 1) * 2 ^ 125 = 2 ^ 125 := by decide
  have hzero : Format.binary16.steps 0 = 0 := by decide
  have hpos : 0 < Format.binary16.infinity := by decide
  have hvalue : Format.binary32.magnitude x =
      ((Format.binary16.steps 0 * 2 ^ 125 + Format.binary32.steps x : Nat) : ℚ) *
        2 ^ (-149 : Int) := by
    rw [magnitude_binary32, hzero, Nat.zero_mul, Nat.zero_add]
  have hnearest := nearestEven_of_between binary16_minExp hpos hgap (by omega) hvalue
  rwa [hround] at hnearest

/-- From 65520 on the result is infinity. -/
theorem nearestEven_overflow {x : Nat} (h : 0x477ff000 ≤ x) :
    Format.binary16.NearestEven (Format.binary32.magnitude x) 0x7c00 := by
  have hthreshold : Format.binary32.magnitude 0x477ff000 = 65520 := by
    rw [magnitude_binary32, steps_binary32 (by decide)]
    norm_num
  have hlast : Format.binary16.magnitude 0x7bff = 65504 := by
    rw [magnitude, steps_binary16 (by decide), binary16_minExp]
    norm_num
  have hfirst : Format.binary16.magnitude 0x7c00 = 65536 := by
    rw [magnitude, steps_binary16 (by decide), binary16_minExp]
    norm_num
  have hmono : Format.binary32.magnitude 0x477ff000 ≤ Format.binary32.magnitude x :=
    strictMono_magnitude.monotone h
  rw [← binary16_infinity]
  apply nearestEven_infinity (by decide)
  rw [binary16_infinity, hlast, hfirst]
  linarith

theorem signed_binary16 (bits pattern : Nat) :
    Format.binary16.signed (Format.binary32.negative bits) pattern =
      bits / 2 ^ 31 % 2 * 0x8000 + pattern := by
  simp only [signed, negative, binary32_signBit, binary16_signBit, decide_eq_true_eq]
  split <;> omega

theorem narrowF32F16_roundsTo (bits : Nat) :
    Format.binary32.RoundsTo .binary16 bits (narrowF32F16 bits) := by
  have hunsigned : Format.binary32.unsigned bits = bits % 2 ^ 31 := rfl
  unfold narrowF32F16
  dsimp only
  by_cases hnan : 0x7f800000 < bits % 2 ^ 31
  · rw [if_pos hnan]
    have hdecode : Format.binary32.decode bits = .nan := decode_nan (by
      rw [hunsigned, binary32_infinity]
      exact hnan)
    have hle : 0x7e00 ≤ 0x7e00 ||| bits % 2 ^ 31 / 2 ^ 13 % 2 ^ 10 := Nat.left_le_or
    have hlt : 0x7e00 ||| bits % 2 ^ 31 / 2 ^ 13 % 2 ^ 10 < 2 ^ 15 :=
      Nat.or_lt_two_pow (by decide) (by omega)
    simp only [RoundsTo, hdecode]
    refine ⟨decode_nan ?_, ?_, ?_⟩
    · show Format.binary16.infinity < _ % Format.binary16.signBit
      rw [binary16_infinity, binary16_signBit]
      omega
    · show _ / 2 ^ 9 % 2 = 1
      omega
    · simp only [negative, binary16_signBit, binary32_signBit, decide_eq_decide]
      omega
  · rw [if_neg hnan]
    by_cases hinfinite : bits % 2 ^ 31 = 0x7f800000
    · have hdecode : Format.binary32.decode bits = _ :=
        decode_infinite (by rw [hunsigned, binary32_infinity, hinfinite])
      simp only [RoundsTo, hdecode]
      rw [if_pos (by omega), signed_binary16, binary16_infinity]
    · have hfinite : Format.binary32.unsigned bits < Format.binary32.infinity := by
        rw [hunsigned, binary32_infinity]
        omega
      have hsign := signed_binary16 bits
      split
      · exact roundsTo_of_lt hfinite (hsign _).symm (nearestEven_overflow ‹_›)
      · split
        · exact roundsTo_of_lt hfinite (hsign _).symm (nearestEven_normal ‹_› (by omega))
        · split
          · exact roundsTo_of_lt hfinite (by rw [hsign, Nat.add_zero]) (nearestEven_zero ‹_›)
          · refine roundsTo_of_lt hfinite ?_ (nearestEven_subnormal (by omega) (by omega))
            rw [hsign, hunsigned, tiesToEven_half (by omega)]

/-! ### bfloat16 -/

/-- The two formats have the same exponents: the discarded half decides. -/
theorem nearestEven_half {x : Nat} (h : x < 0x7f800000) :
    Format.bfloat16.NearestEven (Format.binary32.magnitude x)
      ((x + 0x7fff + x / 2 ^ 16 % 2) / 2 ^ 16) := by
  have hround : (x + 0x7fff + x / 2 ^ 16 % 2) / 2 ^ 16 =
      tiesToEven (x / 2 ^ 16) (x % 2 ^ 16 * 2 ^ (x / 2 ^ 23 - 1))
        (2 ^ 16 * 2 ^ (x / 2 ^ 23 - 1)) := by
    rw [tiesToEven_mul (by positivity)]
    unfold tiesToEven
    split <;> omega
  have hexp : x / 2 ^ 16 / 2 ^ 7 = x / 2 ^ 23 := by omega
  have hsteps : Format.binary32.steps x = Format.bfloat16.steps (x / 2 ^ 16) * 2 ^ 16 +
      x % 2 ^ 16 * 2 ^ (x / 2 ^ 23 - 1) := by
    by_cases hzero : x / 2 ^ 23 = 0
    · have hwide : x < 2 ^ Format.binary32.manBits := Nat.lt_of_div_eq_zero (by decide) hzero
      have hnarrow : x / 2 ^ 16 < 2 ^ Format.bfloat16.manBits :=
        Nat.lt_of_div_eq_zero (by decide) (hexp.trans hzero)
      rw [steps_of_lt hwide, steps_of_lt hnarrow, hzero]
      omega
    · have hman : x / 2 ^ 16 % 2 ^ 7 * 2 ^ 16 + x % 2 ^ 16 = x % 2 ^ 23 := by omega
      have hnarrow : Format.bfloat16.steps (x / 2 ^ 16) =
          (2 ^ 7 + x / 2 ^ 16 % 2 ^ 7) * 2 ^ (x / 2 ^ 16 / 2 ^ 7 - 1) :=
        if_neg (hexp ▸ hzero)
      rw [steps_binary32 (by omega), hnarrow, hexp, ← hman]
      ring
  rw [hround]
  refine nearestEven_of_between bfloat16_minExp (by rw [bfloat16_infinity]; omega) ?_ ?_ ?_
  · show 2 ^ (x / 2 ^ 16 / 2 ^ 7 - 1) * 2 ^ 16 = _
    rw [hexp, Nat.mul_comm]
  · exact Nat.mul_lt_mul_of_pos_right (Nat.mod_lt _ (by decide)) (by positivity)
  · rw [magnitude_binary32, hsteps]

theorem signed_bfloat16 (bits pattern : Nat) :
    Format.bfloat16.signed (Format.binary32.negative bits) pattern =
      bits / 2 ^ 31 % 2 * 0x8000 + pattern := by
  simp only [signed, negative, binary32_signBit, bfloat16_signBit, decide_eq_true_eq]
  split <;> omega

theorem narrowF32BF16_roundsTo {bits : Nat} (h : bits < 2 ^ 32) :
    Format.binary32.RoundsTo .bfloat16 bits (narrowF32BF16 bits) := by
  have hunsigned : Format.binary32.unsigned bits = bits % 2 ^ 31 := rfl
  unfold narrowF32BF16
  dsimp only
  by_cases hnan : 0x7f800000 < bits % 2 ^ 31
  · rw [if_pos hnan]
    have hdecode : Format.binary32.decode bits = .nan := decode_nan (by
      rw [hunsigned, binary32_infinity]
      exact hnan)
    -- the low fifteen bits keep what they had and gain the quiet bit
    have hmod : (bits / 2 ^ 16 ||| 0x40) % 2 ^ 15 = bits / 2 ^ 16 % 2 ^ 15 ||| 0x40 := by
      rw [Nat.or_mod_two_pow]
    have hdiv : (bits / 2 ^ 16 ||| 0x40) / 2 ^ 15 = bits / 2 ^ 16 / 2 ^ 15 := by
      rw [Nat.or_div_two_pow, Nat.or_zero]
    have hquiet : (bits / 2 ^ 16 ||| 0x40) / 2 ^ 6 % 2 = 1 := by
      rw [Nat.or_div_two_pow]
      exact Nat.or_mod_two_eq_one.2 (Or.inr rfl)
    have hle : bits / 2 ^ 16 % 2 ^ 15 ≤ bits / 2 ^ 16 % 2 ^ 15 ||| 0x40 := Nat.left_le_or
    simp only [RoundsTo, hdecode]
    refine ⟨decode_nan ?_, hquiet, ?_⟩
    · show Format.bfloat16.infinity < _ % Format.bfloat16.signBit
      rw [bfloat16_infinity, bfloat16_signBit]
      omega
    · simp only [negative, bfloat16_signBit, binary32_signBit, decide_eq_decide, hdiv]
      omega
  · rw [if_neg hnan]
    by_cases hinfinite : bits % 2 ^ 31 = 0x7f800000
    · have hdecode : Format.binary32.decode bits = _ :=
        decode_infinite (by rw [hunsigned, binary32_infinity, hinfinite])
      simp only [RoundsTo, hdecode]
      rw [signed_bfloat16, bfloat16_infinity]
      omega
    · have hfinite : Format.binary32.unsigned bits < Format.binary32.infinity := by
        rw [hunsigned, binary32_infinity]
        omega
      refine roundsTo_of_lt hfinite ?_ (nearestEven_half (by omega))
      have hlsb : bits / 2 ^ 16 % 2 = bits % 2 ^ 31 / 2 ^ 16 % 2 := by omega
      rw [signed_bfloat16, hunsigned, hlsb, Nat.mod_eq_of_lt (by omega)]
      omega

/-! ### Widening -/

/-- The loop brings the leading bit of a subnormal mantissa up to bit 10. -/
theorem renormalize_spec {fuel mantissa : Nat} (shifts : Nat) (hhi : mantissa < 2 ^ 11)
    (hlo : 2 ^ 10 ≤ mantissa * 2 ^ fuel) :
    ∃ k ≤ fuel, renormalize fuel mantissa shifts = (mantissa * 2 ^ k, shifts + k) ∧
      2 ^ 10 ≤ mantissa * 2 ^ k ∧ mantissa * 2 ^ k < 2 ^ 11 := by
  induction fuel generalizing mantissa shifts with
  | zero => exact ⟨0, le_refl _, by simp [renormalize], hlo, by simpa using hhi⟩
  | succ fuel ih =>
      rw [renormalize]
      by_cases hlow : mantissa / 2 ^ 10 % 2 = 0
      · rw [if_pos hlow]
        have hlo' : 2 ^ 10 ≤ mantissa * 2 * 2 ^ fuel := by
          rwa [Nat.mul_assoc, ← pow_succ']
        obtain ⟨k, hk, hrun, hbounds⟩ := ih (shifts + 1) (by omega) hlo'
        rw [Nat.mul_assoc, ← pow_succ'] at hrun hbounds
        exact ⟨k + 1, by omega, by rw [hrun, Nat.add_assoc, Nat.add_comm 1], hbounds⟩
      · rw [if_neg hlow]
        exact ⟨0, by omega, by simp, by omega, by omega⟩

/-- Widening keeps the sign and the magnitude of a finite number. -/
theorem widenF16F32_exact {bits : Nat} (hfinite : bits % 2 ^ 15 < 0x7c00) :
    ∃ wide < 0x7f800000, widenF16F32 bits = bits / 2 ^ 15 % 2 * 2 ^ 31 + wide ∧
      Format.binary32.steps wide = Format.binary16.steps (bits % 2 ^ 15) * 2 ^ 125 := by
  unfold widenF16F32
  dsimp only
  by_cases hexp : bits / 2 ^ 10 % 2 ^ 5 = 0
  · have hpattern : bits % 2 ^ 15 = bits % 2 ^ 10 := by omega
    have hsmall : bits % 2 ^ 10 < 2 ^ Format.binary16.manBits := Nat.mod_lt _ (by decide)
    rw [if_pos hexp, hpattern, steps_of_lt hsmall]
    by_cases hzero : bits % 2 ^ 10 = 0
    · rw [if_pos hzero, hzero]
      exact ⟨0, by decide, (Nat.add_zero _).symm, by rw [Nat.zero_mul]; decide⟩
    · rw [if_neg hzero]
      obtain ⟨mantissa, hmantissa⟩ : ∃ mantissa, bits % 2 ^ 10 = mantissa := ⟨_, rfl⟩
      rw [hmantissa] at hzero ⊢
      obtain ⟨k, hk, hrun, hlo, hhi⟩ :=
        renormalize_spec 0 (by omega) (by omega : 2 ^ 10 ≤ mantissa * 2 ^ 10)
      rw [hrun, Nat.zero_add]
      obtain ⟨normal, hnormal⟩ : ∃ normal, mantissa * 2 ^ k = normal := ⟨_, rfl⟩
      rw [hnormal] at hlo hhi ⊢
      refine ⟨(127 - 14 - k) * 2 ^ 23 + normal % 2 ^ 10 * 2 ^ 13, by omega, by omega, ?_⟩
      rw [steps_binary32 (by omega),
        show ((127 - 14 - k) * 2 ^ 23 + normal % 2 ^ 10 * 2 ^ 13) / 2 ^ 23 - 1 = 112 - k by omega,
        show ((127 - 14 - k) * 2 ^ 23 + normal % 2 ^ 10 * 2 ^ 13) % 2 ^ 23 + 0x800000 =
          normal * 2 ^ 13 by omega, ← hnormal, Nat.mul_assoc, Nat.mul_assoc, ← pow_add, ← pow_add,
        show k + (13 + (112 - k)) = 125 by omega]
  · have hnormal : 0x400 ≤ bits % 2 ^ 15 := by omega
    rw [if_neg hexp, if_neg (by omega), steps_binary16 hnormal]
    refine ⟨(bits / 2 ^ 10 % 2 ^ 5 + 112) * 2 ^ 23 + bits % 2 ^ 10 * 2 ^ 13, by omega, by omega, ?_⟩
    obtain ⟨k, hk⟩ : ∃ k, bits / 2 ^ 10 % 2 ^ 5 = k + 1 := ⟨bits / 2 ^ 10 % 2 ^ 5 - 1, by omega⟩
    rw [steps_binary32 (by omega),
      show ((bits / 2 ^ 10 % 2 ^ 5 + 112) * 2 ^ 23 + bits % 2 ^ 10 * 2 ^ 13) / 2 ^ 23 - 1 =
        k + 112 by omega,
      show ((bits / 2 ^ 10 % 2 ^ 5 + 112) * 2 ^ 23 + bits % 2 ^ 10 * 2 ^ 13) % 2 ^ 23 + 0x800000 =
        (2 ^ 10 + bits % 2 ^ 15 % 2 ^ 10) * 2 ^ 13 by omega,
      show bits % 2 ^ 15 / 2 ^ 10 - 1 = k by omega, pow_add]
    ring

theorem narrowF32F16_widenF16F32 {bits : Nat} (h : bits < 2 ^ 16)
    (hnumber : bits % 2 ^ 15 ≤ 0x7c00) : narrowF32F16 (widenF16F32 bits) = bits := by
  rcases Nat.lt_or_eq_of_le hnumber with hfinite | hinfinite
  · obtain ⟨wide, hwide, hbits, hsteps⟩ := widenF16F32_exact hfinite
    have hunsigned : Format.binary32.unsigned (widenF16F32 bits) = wide := by
      show widenF16F32 bits % Format.binary32.signBit = wide
      rw [hbits, binary32_signBit]
      omega
    have hmagnitude : Format.binary32.magnitude wide =
        Format.binary16.magnitude (bits % 2 ^ 15) := by
      rw [magnitude_binary32, hsteps, magnitude, binary16_minExp, zpow_add₀ (by norm_num)]
      push_cast
      ring
    have hlt : Format.binary32.unsigned (widenF16F32 bits) < Format.binary32.infinity := by
      rw [hunsigned, binary32_infinity]
      exact hwide
    have hle : bits % 2 ^ 15 ≤ Format.binary16.infinity := by
      rw [binary16_infinity]
      exact hnumber
    have hback := (narrowF32F16_roundsTo (widenF16F32 bits)).eq_of_exact hlt hle
      (by rw [hunsigned]; exact hmagnitude)
    have hsign : widenF16F32 bits / 2 ^ 31 = bits / 2 ^ 15 % 2 := by omega
    rw [hback, signed_binary16, hsign]
    omega
  · have hwide : widenF16F32 bits = bits / 2 ^ 15 % 2 * 2 ^ 31 + 0x7f800000 := by
      unfold widenF16F32
      dsimp only
      rw [if_neg (by omega), if_pos (by omega)]
      omega
    unfold narrowF32F16
    dsimp only
    rw [hwide, if_neg (by omega), if_pos (by omega)]
    omega

theorem narrowF32BF16_widenBF16F32 {bits : Nat} (h : bits < 2 ^ 16)
    (hnumber : bits % 2 ^ 15 ≤ 0x7f80) : narrowF32BF16 (widenBF16F32 bits) = bits := by
  unfold narrowF32BF16 widenBF16F32
  dsimp only
  rw [if_neg (by omega), Nat.mul_div_cancel _ (by decide), Nat.mod_eq_of_lt (by omega)]
  omega

/-- Narrowing rounds every pattern to nearest even, and takes a widened number back. -/
theorem narrow_rounds_to_nearest :
    (∀ bits < 2 ^ 32, Format.binary32.RoundsTo .binary16 bits (narrowF32F16 bits) ∧
      Format.binary32.RoundsTo .bfloat16 bits (narrowF32BF16 bits)) ∧
    ∀ bits < 2 ^ 16,
      (Format.binary16.decode bits ≠ .nan → narrowF32F16 (widenF16F32 bits) = bits) ∧
      (Format.bfloat16.decode bits ≠ .nan → narrowF32BF16 (widenBF16F32 bits) = bits) := by
  refine ⟨fun bits hbits => ⟨narrowF32F16_roundsTo bits, narrowF32BF16_roundsTo hbits⟩,
    fun bits hbits => ⟨fun hnumber => ?_, fun hnumber => ?_⟩⟩
  · apply narrowF32F16_widenF16F32 hbits
    by_contra hgt
    apply hnumber
    apply decode_nan
    show Format.binary16.infinity < bits % Format.binary16.signBit
    rw [binary16_infinity, binary16_signBit]
    omega
  · apply narrowF32BF16_widenBF16F32 hbits
    by_contra hgt
    apply hnumber
    apply decode_nan
    show Format.bfloat16.infinity < bits % Format.bfloat16.signBit
    rw [bfloat16_infinity, bfloat16_signBit]
    omega

/-- `0x33000001` is just above half of the smallest binary16 number, whose pattern comes back. -/
theorem narrow_rounds_to_nearest_least :
    Format.binary32.RoundsTo .binary16 0x33000001 (narrowF32F16 0x33000001) ∧
      narrowF32F16 (widenF16F32 1) = 1 ∧ narrowF32BF16 (widenBF16F32 1) = 1 :=
  ⟨(narrow_rounds_to_nearest.1 _ (by decide)).1,
    (narrow_rounds_to_nearest.2 1 (by decide)).1 (by decide),
    (narrow_rounds_to_nearest.2 1 (by decide)).2 (by decide)⟩

end Quant

end SymReloc
