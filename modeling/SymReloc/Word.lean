import Mathlib.Algebra.BigOperators.Group.List.Basic
import Mathlib.Algebra.Order.Ring.Int
import Mathlib.Tactic.Common
import Mathlib.Tactic.Ring

/-!
# Fixed-width integers

Machine integers are modelled by `Int` and `Nat`.  A signed 64-bit operation is
either checked (`__builtin_*_overflow`), in which case a result that does not
fit is no result, or stored as it is, in which case it is reduced by `wrap64`.
-/

namespace SymReloc

/-- The value is one a signed 64-bit integer can hold. -/
def FitsI64 (value : Int) : Prop := -2 ^ 63 ≤ value ∧ value < 2 ^ 63

instance (value : Int) : Decidable (FitsI64 value) := by unfold FitsI64; infer_instance

/-- The signed 64-bit integer congruent to a value. -/
def wrap64 (value : Int) : Int := value.bmod (2 ^ 64)

theorem fitsI64_wrap64 (value : Int) : FitsI64 (wrap64 value) := by
  have hlo := Int.le_bmod (x := value) (m := 2 ^ 64) (by decide)
  have hhi := Int.bmod_lt (x := value) (m := 2 ^ 64) (by decide)
  unfold FitsI64 wrap64
  omega

theorem wrap64_of_fits {value : Int} (h : FitsI64 value) : wrap64 value = value := by
  unfold FitsI64 at h
  exact Int.bmod_eq_of_le (by omega) (by omega)

/-- Two's complement keeps a value modulo 2⁶⁴. -/
theorem wrap64_emod (value : Int) : wrap64 (value % 2 ^ 64) = wrap64 value :=
  Int.emod_bmod value (2 ^ 64)

/-- A checked result: none when it does not fit. -/
def checked64 (value : Int) : Option Int := if FitsI64 value then some value else none

theorem checked64_eq_some {value result : Int} :
    checked64 value = some result ↔ FitsI64 value ∧ result = value := by
  unfold checked64
  split
  · simp only [*, Option.some.injEq, true_and]
    exact eq_comm
  · simp [*]

theorem one_le_prod {extents : List Int} (h : ∀ extent ∈ extents, 1 ≤ extent) :
    1 ≤ extents.prod := by
  induction extents with
  | nil => exact le_refl 1
  | cons extent rest ih =>
      rw [List.forall_mem_cons] at h
      rw [List.prod_cons]
      exact one_le_mul_of_one_le_of_one_le h.1 (ih h.2)

end SymReloc
