import Mathlib.Algebra.Order.Field.Rat
import Mathlib.Algebra.Order.Field.Power
import Mathlib.Order.Monotone.Basic
import Mathlib.Tactic.Linarith
import Mathlib.Tactic.Ring
import SymReloc.Ieee

/-!
# Rounding to nearest, ties to even

The patterns of a format without their sign are ordered as the values they stand for.  A value
is rounded to the nearest pattern, and to the even one of two nearest.  Infinity takes part with
the power of two that follows the largest finite value, which puts the overflow threshold
half a unit above that value.
-/

namespace Ieee

namespace Format

/-! ### Magnitudes -/

/-- The magnitude of a pattern without sign, counted in smallest positive values. -/
def steps (format : Format) (pattern : Nat) : Nat :=
  if pattern / 2 ^ format.manBits = 0 then pattern
  else (2 ^ format.manBits + pattern % 2 ^ format.manBits) *
    2 ^ (pattern / 2 ^ format.manBits - 1)

/-- The magnitude of a pattern without sign. -/
def magnitude (format : Format) (pattern : Nat) : ℚ :=
  format.steps pattern * 2 ^ format.minExp

/-- The pattern is nearest to the value, and even where another one is as near. -/
def NearestEven (format : Format) (value : ℚ) (pattern : Nat) : Prop :=
  pattern ≤ format.infinity ∧
    (∀ other ≤ format.infinity,
      |format.magnitude pattern - value| ≤ |format.magnitude other - value|) ∧
    ∀ other ≤ format.infinity,
      |format.magnitude other - value| = |format.magnitude pattern - value| →
        other = pattern ∨ pattern % 2 = 0

variable {format : Format}

theorem steps_of_lt {pattern : Nat} (h : pattern < 2 ^ format.manBits) :
    format.steps pattern = pattern := by
  rw [steps, if_pos (Nat.div_eq_of_lt h)]

theorem steps_succ (pattern : Nat) :
    format.steps (pattern + 1) =
      format.steps pattern + 2 ^ (pattern / 2 ^ format.manBits - 1) := by
  have hpos : 0 < 2 ^ format.manBits := by positivity
  have hsplit := Nat.div_add_mod pattern (2 ^ format.manBits)
  have hrest := Nat.mod_lt pattern hpos
  unfold steps
  generalize pattern / 2 ^ format.manBits = exp at hsplit ⊢
  generalize pattern % 2 ^ format.manBits = man at hsplit hrest ⊢
  generalize 2 ^ format.manBits = size at *
  subst hsplit
  by_cases hcarry : man + 1 = size
  · -- the mantissa is full and the exponent goes up
    have hnext : size * exp + man + 1 = size * (exp + 1) := by
      rw [Nat.mul_succ]
      omega
    rw [hnext, Nat.mul_div_cancel_left _ hpos, Nat.mul_mod_right, if_neg (by omega)]
    cases exp with
    | zero => simp only [if_pos]; omega
    | succ exp =>
        have hdouble : size + man + 1 = size * 2 := by omega
        calc (size + 0) * 2 ^ (exp + 1 + 1 - 1) = size * 2 * 2 ^ exp := by
              rw [Nat.add_sub_cancel, pow_succ]
              ring
          _ = (size + man) * 2 ^ exp + 2 ^ exp := by rw [← hdouble]; ring
  · have hdiv : (size * exp + man + 1) / size = exp := by
      rw [Nat.add_assoc, Nat.mul_add_div hpos, Nat.div_eq_of_lt (by omega), Nat.add_zero]
    have hmod : (size * exp + man + 1) % size = man + 1 := by
      rw [Nat.add_assoc, Nat.mul_add_mod, Nat.mod_eq_of_lt (by omega)]
    rw [hdiv, hmod]
    by_cases hzero : exp = 0
    · subst hzero
      simp
    · rw [if_neg hzero, if_neg hzero]
      ring

theorem strictMono_steps : StrictMono format.steps :=
  strictMono_nat_of_lt_succ fun pattern => by
    rw [steps_succ]
    exact Nat.lt_add_of_pos_right (by positivity)

/-! ### Nearest patterns -/

/-- The choice between `low` and the next one at `rest` out of `gap` of the way. -/
def tiesToEven (low rest gap : Nat) : Nat :=
  if gap < 2 * rest ∨ (2 * rest = gap ∧ low % 2 = 1) then low + 1 else low

/-- Between two neighbours of an increasing sequence the remainder decides. -/
theorem nearest_of_between {grid : Nat → Nat} (hgrid : StrictMono grid) {low rest gap : Nat}
    (hgap : grid (low + 1) = grid low + gap) (hrest : rest < gap) (other : Nat) :
    let value : Int := grid low + rest
    let pattern := tiesToEven low rest gap
    |grid pattern - value| ≤ |grid other - value| ∧
      (|grid other - value| = |grid pattern - value| → other = pattern ∨ pattern % 2 = 0) := by
  intro value pattern
  have hother : other < low ∧ grid other < grid low ∨ other = low ∨ other = low + 1 ∨
      low + 1 < other ∧ grid low + gap < grid other := by
    rcases Nat.lt_trichotomy other low with hlt | heq | hgt
    · exact Or.inl ⟨hlt, hgrid hlt⟩
    · exact Or.inr (Or.inl heq)
    · rcases Nat.eq_or_lt_of_le (Nat.succ_le_of_lt hgt) with heq | hlt
      · exact Or.inr (Or.inr (Or.inl heq.symm))
      · exact Or.inr (Or.inr (Or.inr ⟨hlt, hgap ▸ hgrid hlt⟩))
  have hlow : |(grid low : Int) - value| = rest := by
    rw [abs_sub_comm, abs_of_nonneg (by simp only [value]; omega)]
    simp only [value]
    omega
  have hhigh : |(grid (low + 1) : Int) - value| = (gap - rest : Nat) := by
    rw [abs_of_nonneg (by simp only [value]; omega)]
    simp only [value]
    omega
  have hpattern : pattern = low + 1 ∧ (gap < 2 * rest ∨ (2 * rest = gap ∧ low % 2 = 1)) ∨
      pattern = low ∧ ¬ (gap < 2 * rest ∨ (2 * rest = gap ∧ low % 2 = 1)) := by
    by_cases hup : gap < 2 * rest ∨ (2 * rest = gap ∧ low % 2 = 1)
    · exact Or.inl ⟨if_pos hup, hup⟩
    · exact Or.inr ⟨if_neg hup, hup⟩
  have hfar : other < low ∧ grid other < grid low →
      |(grid other : Int) - value| = grid low + rest - grid other := by
    rintro ⟨-, hlt⟩
    rw [abs_sub_comm, abs_of_nonneg (by simp only [value]; omega)]
  have hfar' : low + 1 < other ∧ grid low + gap < grid other →
      |(grid other : Int) - value| = grid other - grid low - rest := by
    rintro ⟨-, hlt⟩
    rw [abs_of_nonneg (by simp only [value]; omega)]
    simp only [value]
    omega
  clear_value pattern value
  rcases hpattern with ⟨rfl, hup⟩ | ⟨rfl, hup⟩ <;>
    rcases hother with hbelow | rfl | rfl | habove <;> constructor <;> omega

/-- A value between two neighbouring magnitudes, counted in units of `2 ^ unit`. -/
theorem nearestEven_of_between {value : ℚ} {unit : Int} {scale low rest gap : Nat}
    (hunit : format.minExp = unit + scale) (hlow : low < format.infinity)
    (hgap : 2 ^ (low / 2 ^ format.manBits - 1) * 2 ^ scale = gap) (hrest : rest < gap)
    (hvalue : value = ((format.steps low * 2 ^ scale + rest : Nat) : ℚ) * 2 ^ unit) :
    format.NearestEven value (tiesToEven low rest gap) := by
  have hgrid : StrictMono fun pattern => format.steps pattern * 2 ^ scale := fun a b h =>
    Nat.mul_lt_mul_of_pos_right (strictMono_steps h) (by positivity)
  have hnext : format.steps (low + 1) * 2 ^ scale = format.steps low * 2 ^ scale + gap := by
    rw [steps_succ, Nat.add_mul, hgap]
  have hnearest := nearest_of_between hgrid hnext hrest
  -- distances are the integer ones times the unit
  have hpos : (0 : ℚ) < 2 ^ unit := by positivity
  have hdistance : ∀ pattern, |format.magnitude pattern - value| =
      ((|((format.steps pattern * 2 ^ scale : Nat) : Int) -
        ((format.steps low * 2 ^ scale : Nat) + (rest : Nat) : Int)| : Int) : ℚ) * 2 ^ unit := by
    intro pattern
    rw [hvalue, magnitude, hunit, zpow_add₀ (by norm_num)]
    push_cast
    rw [← abs_of_pos hpos, ← abs_mul, abs_of_pos hpos]
    congr 1
    rw [zpow_natCast]
    ring
  refine ⟨?_, fun other _ => ?_, fun other _ heq => ?_⟩
  · unfold tiesToEven
    split <;> omega
  · rw [hdistance, hdistance]
    exact mul_le_mul_of_nonneg_right (by exact_mod_cast (hnearest other).1) hpos.le
  · rw [hdistance, hdistance] at heq
    exact (hnearest other).2 (by exact_mod_cast mul_right_cancel₀ hpos.ne' heq)

theorem strictMono_magnitude : StrictMono format.magnitude := fun a b h =>
  mul_lt_mul_of_pos_right (by exact_mod_cast strictMono_steps h) (by positivity)

/-- A value that has a pattern is rounded to it. -/
theorem NearestEven.eq_of_magnitude {exact pattern : Nat} (hexact : exact ≤ format.infinity)
    (h : format.NearestEven (format.magnitude exact) pattern) : pattern = exact := by
  have hzero := h.2.1 exact hexact
  rw [sub_self, abs_zero] at hzero
  exact strictMono_magnitude.injective (sub_eq_zero.1 (abs_nonpos_iff.1 hzero))

/-- From half a unit above the largest finite value on, infinity is nearest. -/
theorem nearestEven_infinity {value : ℚ} (hinfinity : format.infinity % 2 = 0)
    (h : format.magnitude (format.infinity - 1) + format.magnitude format.infinity ≤ 2 * value) :
    format.NearestEven value format.infinity := by
  have hbelow : ∀ other < format.infinity,
      format.magnitude other ≤ format.magnitude (format.infinity - 1) := fun other hother =>
    strictMono_magnitude.monotone (by omega)
  refine ⟨le_refl _, fun other hother => ?_, fun other _ _ => Or.inr hinfinity⟩
  rcases Nat.eq_or_lt_of_le hother with rfl | hlt
  · exact le_refl _
  · have hother := hbelow other hlt
    have hself : format.magnitude other < format.magnitude format.infinity :=
      strictMono_magnitude hlt
    rw [abs_sub_comm (format.magnitude other), abs_of_nonneg (by linarith : 0 ≤ value - _)]
    exact abs_le.2 ⟨by linarith, by linarith⟩

/-! ### Patterns and their data -/

/-- The pattern without its sign. -/
def unsigned (format : Format) (bits : Nat) : Nat := bits % format.signBit

def negative (format : Format) (bits : Nat) : Bool := bits / format.signBit % 2 = 1

theorem unsigned_div (bits : Nat) : format.unsigned bits / 2 ^ format.manBits =
    bits / 2 ^ format.manBits % 2 ^ format.expBits := by
  rw [unsigned, signBit, Nat.add_comm, pow_add, Nat.mod_mul_right_div_self]

theorem unsigned_mod (bits : Nat) :
    format.unsigned bits % 2 ^ format.manBits = bits % 2 ^ format.manBits := by
  rw [unsigned, signBit, pow_add]
  exact Nat.mod_mul_left_mod _ _ _

theorem unsigned_eq (bits : Nat) : format.unsigned bits =
    2 ^ format.manBits * (bits / 2 ^ format.manBits % 2 ^ format.expBits) +
      bits % 2 ^ format.manBits := by
  rw [← unsigned_div, ← unsigned_mod, Nat.div_add_mod]

theorem decode_nan {bits : Nat} (h : format.infinity < format.unsigned bits) :
    format.decode bits = .nan := by
  have hexp := Nat.mod_lt (bits / 2 ^ format.manBits) (y := 2 ^ format.expBits) (by positivity)
  have hman := Nat.mod_lt bits (y := 2 ^ format.manBits) (by positivity)
  rw [unsigned_eq, infinity, Nat.mul_comm] at h
  unfold decode
  dsimp only
  generalize bits / 2 ^ format.manBits % 2 ^ format.expBits = exp at h hexp ⊢
  generalize bits % 2 ^ format.manBits = man at h hman ⊢
  have htop : exp = 2 ^ format.expBits - 1 := by
    by_contra hne
    have hle : exp + 1 ≤ 2 ^ format.expBits - 1 := by omega
    have hmul := Nat.mul_le_mul_left (2 ^ format.manBits) hle
    rw [Nat.mul_succ] at hmul
    omega
  rw [if_pos htop, if_neg]
  rintro rfl
  rw [htop] at h
  omega

theorem decode_infinite {bits : Nat} (h : format.unsigned bits = format.infinity) :
    format.decode bits = .infinite (format.negative bits) := by
  have hman : bits % 2 ^ format.manBits = 0 := by
    rw [← unsigned_mod, h, infinity, Nat.mul_mod_left]
  have hexp : bits / 2 ^ format.manBits % 2 ^ format.expBits = 2 ^ format.expBits - 1 := by
    rw [← unsigned_div, h, infinity, Nat.mul_div_cancel _ (by positivity)]
  unfold decode
  simp only [hman, hexp, if_true]
  rfl

/-- The datum of a pattern below infinity has the pattern's sign and magnitude. -/
theorem decode_finite {bits : Nat} (h : format.unsigned bits < format.infinity) :
    ∃ man exp, format.decode bits = .finite (format.negative bits) man exp ∧
      (man : ℚ) * 2 ^ exp = format.magnitude (format.unsigned bits) := by
  have hdiv : format.unsigned bits / 2 ^ format.manBits = _ := unsigned_div bits
  have hmod : format.unsigned bits % 2 ^ format.manBits = _ := unsigned_mod bits
  have hsplit := Nat.div_add_mod (format.unsigned bits) (2 ^ format.manBits)
  rw [infinity, Nat.mul_comm] at h
  unfold decode
  dsimp only
  rw [← hdiv, ← hmod, if_neg]
  · by_cases hzero : format.unsigned bits / 2 ^ format.manBits = 0
    · rw [if_pos hzero]
      refine ⟨_, _, rfl, ?_⟩
      rw [magnitude, steps, if_pos hzero]
      rw [hzero, Nat.mul_zero, Nat.zero_add] at hsplit
      rw [hsplit]
    · rw [if_neg hzero]
      refine ⟨_, _, rfl, ?_⟩
      rw [magnitude, steps, if_neg hzero]
      have hexp : format.minExp + (format.unsigned bits / 2 ^ format.manBits : Nat) - 1 =
          format.minExp + ((format.unsigned bits / 2 ^ format.manBits - 1 : Nat) : Int) := by
        omega
      push_cast at hexp ⊢
      rw [hexp, zpow_add₀ (by norm_num), zpow_natCast]
      ring
  · intro htop
    rw [htop] at hsplit
    omega

/-! ### Conversions -/

/-- The conversion of `bits` is `result`: finite values are rounded to nearest even under their
    sign, infinities stay, and a NaN becomes a quiet one of the same sign. -/
def RoundsTo (source target : Format) (bits result : Nat) : Prop :=
  match source.decode bits with
  | .nan => target.decode result = .nan ∧ result / 2 ^ (target.manBits - 1) % 2 = 1 ∧
      target.negative result = source.negative bits
  | .infinite negative => result = target.signed negative target.infinity
  | .finite negative man exp => ∃ pattern, result = target.signed negative pattern ∧
      target.NearestEven (man * 2 ^ exp) pattern

theorem roundsTo_of_lt {source target : Format} {bits result pattern : Nat}
    (h : source.unsigned bits < source.infinity)
    (hresult : result = target.signed (source.negative bits) pattern)
    (hnearest : target.NearestEven (source.magnitude (source.unsigned bits)) pattern) :
    source.RoundsTo target bits result := by
  obtain ⟨man, exp, hdecode, hvalue⟩ := decode_finite h
  simp only [RoundsTo, hdecode]
  exact ⟨pattern, hresult, hvalue ▸ hnearest⟩

/-- A conversion that rounds takes the exact image of a pattern back to the pattern. -/
theorem RoundsTo.eq_of_exact {source target : Format} {wide bits pattern : Nat}
    (h : source.RoundsTo target wide bits) (hfinite : source.unsigned wide < source.infinity)
    (hpattern : pattern ≤ target.infinity)
    (hexact : source.magnitude (source.unsigned wide) = target.magnitude pattern) :
    bits = target.signed (source.negative wide) pattern := by
  obtain ⟨man, exp, hdecode, hvalue⟩ := decode_finite hfinite
  simp only [RoundsTo, hdecode, hvalue, hexact] at h
  obtain ⟨found, hbits, hnearest⟩ := h
  rw [hbits, hnearest.eq_of_magnitude hpattern]

end Format

end Ieee
