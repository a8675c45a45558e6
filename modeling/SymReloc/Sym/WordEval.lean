import Mathlib.Tactic.LinearCombination
import SymReloc.Sym.Simplify

/-!
# Evaluation in signed words

`evalChecked` is the value of an expression none of whose nodes overflows;
`evalWord` lets them wrap around.  The compiler's simplifier, which wraps around when
it folds, keeps the wrapped value (`getSimplifiedBinaryExpr_evalWord`), so where both
an expression and its simplified form evaluate without overflow their values agree.
-/

namespace SymReloc

/-! ### Residues -/

theorem dvd_sub_wrap64 (value : Int) : (2 ^ 64 : Int) ∣ value - wrap64 value := by
  rw [wrap64, Int.bmod_eq_emod]
  split
  · exact ⟨value / 2 ^ 64 + 1, by omega⟩
  · exact ⟨value / 2 ^ 64, by omega⟩

/-- Two values wrap to one exactly when they differ by a multiple of the word size. -/
theorem wrap64_eq_wrap64 {a b : Int} : wrap64 a = wrap64 b ↔ (2 ^ 64 : Int) ∣ a - b := by
  rw [wrap64, wrap64, Int.bmod_eq_bmod_iff_bmod_sub_eq_zero]
  exact (Int.dvd_iff_bmod_eq_zero).symm

namespace SymExpr

/-! ### The two evaluations -/

/-- The value, unless a node does not fit or divides by zero. -/
def evalChecked (σ : Name → Int) : SymExpr → Option Int
  | .symbol name => checked64 (σ name)
  | .constant value => checked64 value
  | .binary opcode lhs rhs =>
      (lhs.evalChecked σ).bind fun l => (rhs.evalChecked σ).bind fun r =>
        (opcode.apply l r).bind checked64

/-- The value with every result wrapped around. -/
def evalWord (σ : Name → Int) : SymExpr → Option Int
  | .symbol name => checked64 (σ name)
  | .constant value => checked64 value
  | .binary opcode lhs rhs =>
      (lhs.evalWord σ).bind fun l => (rhs.evalWord σ).bind fun r =>
        (opcode.apply l r).map wrap64

variable {σ : Name → Int} {opcode : SymbolicExprOp} {lhs rhs expr : SymExpr} {value : Int}

theorem evalWord_binary : (binary opcode lhs rhs).evalWord σ = some value ↔
    ∃ l r exact, lhs.evalWord σ = some l ∧ rhs.evalWord σ = some r ∧
      opcode.apply l r = some exact ∧ value = wrap64 exact := by
  simp only [evalWord, Option.bind_eq_some_iff, Option.map_eq_some_iff]
  constructor
  · rintro ⟨l, hl, r, hr, exact, happly, rfl⟩
    exact ⟨l, r, exact, hl, hr, happly, rfl⟩
  · rintro ⟨l, r, exact, hl, hr, happly, rfl⟩
    exact ⟨l, hl, r, hr, exact, happly, rfl⟩

theorem fits_of_evalWord (h : expr.evalWord σ = some value) : FitsI64 value := by
  cases expr with
  | symbol name =>
      obtain ⟨hfits, rfl⟩ := checked64_eq_some.mp h
      exact hfits
  | constant c =>
      obtain ⟨hfits, rfl⟩ := checked64_eq_some.mp h
      exact hfits
  | binary opcode lhs rhs =>
      obtain ⟨l, r, exact, -, -, -, rfl⟩ := evalWord_binary.mp h
      exact fitsI64_wrap64 _

/-- Where nothing overflows nothing wraps around. -/
theorem evalWord_of_evalChecked (h : expr.evalChecked σ = some value) :
    expr.evalWord σ = some value := by
  induction expr generalizing value with
  | symbol name => exact h
  | constant c => exact h
  | binary opcode lhs rhs ihl ihr =>
      simp only [evalChecked, Option.bind_eq_some_iff] at h
      obtain ⟨l, hl, r, hr, exact, happly, hfits⟩ := h
      obtain ⟨hfits, rfl⟩ := checked64_eq_some.mp hfits
      exact evalWord_binary.mpr ⟨l, r, _, ihl hl, ihr hr, happly, (wrap64_of_fits hfits).symm⟩

/-! ### Logical equality -/

theorem evalWord_binary_swap (hop : opcode.commutative = true) (lhs rhs : SymExpr) :
    (binary opcode lhs rhs).evalWord σ = (binary opcode rhs lhs).evalWord σ := by
  rw [evalWord, evalWord]
  cases lhs.evalWord σ with
  | none => cases rhs.evalWord σ <;> rfl
  | some l =>
      cases rhs.evalWord σ with
      | none => rfl
      | some r => exact congrArg (Option.map wrap64) (SymbolicExprOp.apply_comm hop l r)

theorem areLogicallyEqual_evalWord :
    ∀ {lhs rhs : SymExpr}, areLogicallyEqual lhs rhs = true → lhs.evalWord σ = rhs.evalWord σ
  | .constant l, .constant r, h => by
      rw [areLogicallyEqual, beq_iff_eq] at h
      rw [h]
  | .symbol l, .symbol r, h => by
      rw [areLogicallyEqual, beq_iff_eq] at h
      rw [h]
  | .binary op l r, .binary op' l' r', h => by
      simp only [areLogicallyEqual, Bool.and_eq_true, Bool.or_eq_true, beq_iff_eq] at h
      obtain ⟨rfl, ⟨hl, hr⟩ | ⟨hop, hl, hr⟩⟩ := h
      · rw [evalWord, evalWord, areLogicallyEqual_evalWord hl, areLogicallyEqual_evalWord hr]
      · rw [evalWord_binary_swap hop l' r', evalWord, evalWord, areLogicallyEqual_evalWord hl,
          areLogicallyEqual_evalWord hr]
  | .constant _, .symbol _, h => by simp [areLogicallyEqual] at h
  | .constant _, .binary .., h => by simp [areLogicallyEqual] at h
  | .symbol _, .constant _, h => by simp [areLogicallyEqual] at h
  | .symbol _, .binary .., h => by simp [areLogicallyEqual] at h
  | .binary .., .constant _, h => by simp [areLogicallyEqual] at h
  | .binary .., .symbol _, h => by simp [areLogicallyEqual] at h

/-! ### Simplification -/

/-- `new` has the wrapped value of `old` wherever `old` has one. -/
def WordRefines (σ : Name → Int) (old new : SymExpr) : Prop :=
  ∀ value, old.evalWord σ = some value → new.evalWord σ = some value

theorem eval_of_isConstantValue_word {c : Int} (h : expr.isConstantValue c = true)
    (hvalue : expr.evalWord σ = some value) : value = c := by
  rw [isConstantValue_iff] at h
  rw [h] at hvalue
  exact (checked64_eq_some.mp hvalue).2

/-- The folded constant is the wrapped result. -/
theorem foldConstants_wrap64_eq {l r c exact : Int} (h : foldConstants wrap64 opcode l r = some c)
    (happly : opcode.apply l r = some exact) : c = wrap64 exact := by
  cases opcode with
  | add => cases h; cases happly; rfl
  | sub => cases h; cases happly; rfl
  | mul => cases h; cases happly; rfl
  | div =>
      simp only [foldConstants, SymbolicExprOp.apply] at h happly
      split at h
      · cases h
      · rename_i hr
        rw [if_neg hr] at happly
        cases h
        cases happly
        rfl
  | mod =>
      simp only [foldConstants, SymbolicExprOp.apply] at h happly
      split at h
      · cases h
      · rename_i hr
        rw [if_neg hr] at happly
        cases h
        cases happly
        rw [wrap64_eq_wrap64, Int.fmod_def]
        obtain ⟨a, ha⟩ := dvd_sub_wrap64 (l.fdiv r)
        obtain ⟨b, hb⟩ := dvd_sub_wrap64 (wrap64 (l.fdiv r) * r)
        exact ⟨a * r + b, by linear_combination r * ha + hb⟩

theorem wordRefines_left {c : Int} (hrhs : rhs.isConstantValue c = true)
    (happly : ∀ l, opcode.apply l c = some l) : WordRefines σ (.binary opcode lhs rhs) lhs := by
  intro value hvalue
  obtain ⟨l, r, exact, hl, hr, h, hwrap⟩ := evalWord_binary.mp hvalue
  rw [eval_of_isConstantValue_word hrhs hr, happly] at h
  cases h
  rw [hwrap, wrap64_of_fits (fits_of_evalWord hl), hl]

theorem wordRefines_right {c : Int} (hlhs : lhs.isConstantValue c = true)
    (happly : ∀ r, opcode.apply c r = some r) : WordRefines σ (.binary opcode lhs rhs) rhs := by
  intro value hvalue
  obtain ⟨l, r, exact, hl, hr, h, hwrap⟩ := evalWord_binary.mp hvalue
  rw [eval_of_isConstantValue_word hlhs hl, happly] at h
  cases h
  rw [hwrap, wrap64_of_fits (fits_of_evalWord hr), hr]

theorem wordRefines_zero (happly : ∀ l r exact, lhs.evalWord σ = some l → rhs.evalWord σ = some r →
      opcode.apply l r = some exact → exact = 0) :
    WordRefines σ (.binary opcode lhs rhs) (.constant 0) := by
  intro value hvalue
  obtain ⟨l, r, exact, hl, hr, h, hwrap⟩ := evalWord_binary.mp hvalue
  rw [hwrap, happly l r exact hl hr h]
  rfl

theorem identityRule_word (h : identityRule opcode lhs rhs = some expr) :
    WordRefines σ (.binary opcode lhs rhs) expr := by
  cases opcode with
  | add =>
      simp only [identityRule] at h
      split_ifs at h with hrhs hlhs <;> cases h
      · exact wordRefines_left hrhs fun l => by simp [SymbolicExprOp.apply]
      · exact wordRefines_right hlhs fun r => by simp [SymbolicExprOp.apply]
  | sub =>
      simp only [identityRule] at h
      split_ifs at h with hrhs heq <;> cases h
      · exact wordRefines_left hrhs fun l => by simp [SymbolicExprOp.apply]
      · refine wordRefines_zero fun l r exact hl hr happly => ?_
        rw [areLogicallyEqual_evalWord heq, hr] at hl
        cases hl
        simpa [SymbolicExprOp.apply] using happly.symm
  | mul =>
      simp only [identityRule] at h
      split_ifs at h with hone hone' hrhs hlhs <;> cases h
      · exact wordRefines_left hone fun l => by simp [SymbolicExprOp.apply]
      · exact wordRefines_right hone' fun r => by simp [SymbolicExprOp.apply]
      · refine wordRefines_zero fun l r exact _ hr happly => ?_
        rw [eval_of_isConstantValue_word hrhs hr] at happly
        simpa [SymbolicExprOp.apply] using happly.symm
      · refine wordRefines_zero fun l r exact hl _ happly => ?_
        rw [eval_of_isConstantValue_word hlhs hl] at happly
        simpa [SymbolicExprOp.apply] using happly.symm
  | div =>
      simp only [identityRule] at h
      split_ifs at h with hrhs hlhs <;> cases h
      · exact wordRefines_left hrhs fun l => by simp [SymbolicExprOp.apply]
      · refine wordRefines_zero fun l r exact hl _ happly => ?_
        rw [eval_of_isConstantValue_word hlhs hl] at happly
        by_cases hr : r = 0
        · simp [SymbolicExprOp.apply, hr] at happly
        · simpa [SymbolicExprOp.apply, hr] using happly.symm
  | mod =>
      simp only [identityRule] at h
      split_ifs at h with hrhs hlhs <;> cases h
      · refine wordRefines_zero fun l r exact _ hr happly => ?_
        rw [eval_of_isConstantValue_word hrhs hr] at happly
        simpa [SymbolicExprOp.apply] using happly.symm
      · refine wordRefines_zero fun l r exact hl _ happly => ?_
        rw [eval_of_isConstantValue_word hlhs hl] at happly
        by_cases hr : r = 0
        · simp [SymbolicExprOp.apply, hr] at happly
        · simpa [SymbolicExprOp.apply, hr] using happly.symm

/-- Wrapping the inner result does not show in a sum, difference or product. -/
theorem reassociate_word {inner op : SymbolicExprOp} {c₁ c₂ c : Int} {x : SymExpr}
    (h : reassociate wrap64 opcode inner c₁ c₂ = some (op, c)) :
    WordRefines σ (.binary opcode (.binary inner x (.constant c₁)) (.constant c₂))
      (.binary op x (.constant c)) := by
  intro value hvalue
  obtain ⟨l, r, exact, hl, hr, happly, hwrap⟩ := evalWord_binary.mp hvalue
  obtain ⟨v, k, middle, hv, hk, hinner, hwrapInner⟩ := evalWord_binary.mp hl
  obtain ⟨-, rfl⟩ := checked64_eq_some.mp hr
  obtain ⟨-, rfl⟩ := checked64_eq_some.mp hk
  have hfits : FitsI64 c := by
    cases opcode <;> cases inner <;> simp only [reassociate, reduceCtorEq] at h <;> cases h <;>
      exact fitsI64_wrap64 _
  have hc : (constant c).evalWord σ = some c := checked64_eq_some.mpr ⟨hfits, rfl⟩
  obtain ⟨a, ha⟩ := dvd_sub_wrap64 middle
  -- only five operator pairs reassociate; the residues of both sides are the same
  cases opcode <;> cases inner <;> simp only [reassociate, reduceCtorEq] at h <;> cases h <;>
    simp only [SymbolicExprOp.apply, Option.some.injEq] at happly hinner <;>
    refine evalWord_binary.mpr ⟨v, _, _, hv, hc, rfl, ?_⟩ <;>
    rw [hwrap, wrap64_eq_wrap64, ← happly, hwrapInner]
  · obtain ⟨b, hb⟩ := dvd_sub_wrap64 (k + r)
    exact ⟨b - a, by linear_combination hb - ha - hinner⟩
  · obtain ⟨b, hb⟩ := dvd_sub_wrap64 (r - k)
    exact ⟨b - a, by linear_combination hb - ha - hinner⟩
  · obtain ⟨b, hb⟩ := dvd_sub_wrap64 (k - r)
    exact ⟨b - a, by linear_combination hb - ha - hinner⟩
  · obtain ⟨b, hb⟩ := dvd_sub_wrap64 (k + r)
    exact ⟨-b - a, by linear_combination -hb - ha - hinner⟩
  · obtain ⟨b, hb⟩ := dvd_sub_wrap64 (k * r)
    exact ⟨v * b - a * r, by linear_combination v * hb - r * ha - r * hinner⟩

theorem WordRefines.getD {old : SymExpr} {attempt : Option SymExpr}
    (h : ∀ {expr}, attempt = some expr → WordRefines σ old expr) :
    WordRefines σ old (attempt.getD old) := by
  cases attempt with
  | none => exact fun _ hvalue => hvalue
  | some expr => exact h rfl

theorem simplifyBinaryExpr_word (opcode : SymbolicExprOp) (lhs rhs : SymExpr) :
    ∀ {expr}, simplifyBinaryExpr wrap64 opcode lhs rhs = some expr →
      WordRefines σ (.binary opcode lhs rhs) expr := by
  fun_induction simplifyBinaryExpr wrap64 opcode lhs rhs with
  | case1 opcode l r =>
      intro expr h value hvalue
      obtain ⟨c, hc, rfl⟩ := Option.map_eq_some_iff.mp h
      obtain ⟨l', r', exact, hl, hr, happly, hwrap⟩ := evalWord_binary.mp hvalue
      obtain ⟨-, rfl⟩ := checked64_eq_some.mp hl
      obtain ⟨-, rfl⟩ := checked64_eq_some.mp hr
      rw [hwrap, foldConstants_wrap64_eq hc happly]
      exact checked64_eq_some.mpr ⟨fitsI64_wrap64 _, rfl⟩
  | case2 opcode inner x c₁ c₂ expr' hrule =>
      intro expr h
      cases h
      exact identityRule_word hrule
  | case3 opcode inner x c₁ c₂ _ op c hop ih =>
      intro expr h value hvalue
      cases h
      exact WordRefines.getD ih value (reassociate_word hop value hvalue)
  | case4 =>
      intro expr h
      cases h
  | case5 opcode lhs rhs =>
      intro expr h
      exact identityRule_word h

/-- The value of a simplified node, from the values of its operands. -/
theorem getSimplifiedBinaryExpr_evalWord {l r exact : Int} (hl : lhs.evalWord σ = some l)
    (hr : rhs.evalWord σ = some r) (h : opcode.apply l r = some exact) :
    (getSimplifiedBinaryExpr wrap64 opcode lhs rhs).evalWord σ = some (wrap64 exact) :=
  WordRefines.getD (simplifyBinaryExpr_word opcode lhs rhs) _
    (evalWord_binary.mpr ⟨l, r, exact, hl, hr, h, rfl⟩)

end SymExpr

end SymReloc
