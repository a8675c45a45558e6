import SymReloc.Outcome
import SymReloc.Word

/-!
# Machine arithmetic in runs

The runtime mixes two kinds of 64-bit arithmetic.  A checked operation
(`__builtin_*_overflow`) reports a result that does not fit; any other operation
on a result that does not fit is a fault of the run.
-/

namespace SymReloc

/-- A size is a number that `size_t` can hold. -/
def FitsSize (size : Nat) : Prop := size < 2 ^ 64

instance (size : Nat) : Decidable (FitsSize size) := by unfold FitsSize; infer_instance

/-- The conversion of a signed value to `size_t`. -/
def toSize (value : Int) : Nat := (value % 2 ^ 64).toNat

theorem toSize_of_nonneg {value : Int} (h : 0 ≤ value) (hfits : FitsI64 value) :
    (toSize value : Int) = value := by
  unfold FitsI64 at hfits
  unfold toSize
  omega

namespace Outcome

variable {ε α : Type} {post : α → Prop} {value : Int} {size : Nat}

/-- An unchecked signed result. -/
def exact64 (value : Int) : Outcome ε Int :=
  if FitsI64 value then .ok value else .fault .signedOverflow

def add64 (a b : Int) : Outcome ε Int := exact64 (a + b)
def sub64 (a b : Int) : Outcome ε Int := exact64 (a - b)
def mul64 (a b : Int) : Outcome ε Int := exact64 (a * b)

/-- An unchecked unsigned result. -/
def exactSize (size : Nat) : Outcome ε Nat :=
  if FitsSize size then .ok size else .fault .sizeOverflow

/-- A checked unsigned result with the error of an overflow. -/
def checkedSizeOr (size : Nat) (overflow : ε) : Outcome ε Nat :=
  if FitsSize size then .ok size else .error overflow

theorem exact64_eq_ok {result : Int} :
    (exact64 value : Outcome ε Int) = .ok result ↔ FitsI64 value ∧ value = result := by
  unfold exact64
  split <;> simp [*]

@[simp] theorem add64_eq_ok {a b result : Int} :
    (add64 a b : Outcome ε Int) = .ok result ↔ FitsI64 (a + b) ∧ a + b = result :=
  exact64_eq_ok

@[simp] theorem sub64_eq_ok {a b result : Int} :
    (sub64 a b : Outcome ε Int) = .ok result ↔ FitsI64 (a - b) ∧ a - b = result :=
  exact64_eq_ok

@[simp] theorem mul64_eq_ok {a b result : Int} :
    (mul64 a b : Outcome ε Int) = .ok result ↔ FitsI64 (a * b) ∧ a * b = result :=
  exact64_eq_ok

@[simp] theorem exactSize_eq_ok {result : Nat} :
    (exactSize size : Outcome ε Nat) = .ok result ↔ FitsSize size ∧ size = result := by
  unfold exactSize
  split <;> simp [*]

@[simp] theorem checkedSizeOr_eq_ok {overflow : ε} {result : Nat} :
    checkedSizeOr size overflow = .ok result ↔ FitsSize size ∧ size = result := by
  unfold checkedSizeOr
  split <;> simp [*]

theorem exact64_of_fits (h : FitsI64 value) : (exact64 value : Outcome ε Int) = .ok value :=
  if_pos h

theorem exactSize_of_fits (h : FitsSize size) : (exactSize size : Outcome ε Nat) = .ok size :=
  if_pos h

theorem sat_exact64_bind {next : Int → Outcome ε α} (h : FitsI64 value)
    (hnext : Sat (next value) post) : Sat (exact64 value >>= next) post := by
  rw [exact64_of_fits h]
  exact hnext

theorem sat_exactSize_bind {next : Nat → Outcome ε α} (h : FitsSize size)
    (hnext : Sat (next size) post) : Sat (exactSize size >>= next) post := by
  rw [exactSize_of_fits h]
  exact hnext

theorem sat_checkedSizeOr_bind {next : Nat → Outcome ε α} {overflow : ε}
    (hnext : FitsSize size → Sat (next size) post) :
    Sat (checkedSizeOr size overflow >>= next) post := by
  unfold checkedSizeOr
  split
  · exact hnext ‹_›
  · trivial

theorem sat_fetch_bind {β : Type} {values : List β} {index : Nat} {next : β → Outcome ε α}
    (h : index < values.length) (hnext : Sat (next values[index]) post) :
    Sat (fetch values index >>= next) post := by
  rw [fetch_of_lt h]
  exact hnext

end Outcome

end SymReloc
