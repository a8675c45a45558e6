import SymReloc.Sym.Expr
import SymReloc.Word

/-!
# The expression simplifier

`getSimplifiedBinaryExpr` builds a binary node after constant folding, the
identity and zero rules, and the reassociation of trailing constants.  Constants
are 64-bit, so every rule that computes a new one takes the way results are
stored as a parameter `w`: the compiler runs with `wrap64`, exact arithmetic is
`id`.

`getSimplifiedBinaryExpr_refines` says that with exact constants the result has
the value of the node it replaces, whenever that node has one.
-/

namespace SymReloc.SymExpr

/-- `new` has the value of `old` wherever `old` has a value. -/
def Refines (σ : Name → Int) (old new : SymExpr) : Prop :=
  ∀ value, old.eval σ = some value → new.eval σ = some value

theorem Refines.refl (σ : Name → Int) (expr : SymExpr) : Refines σ expr expr := fun _ h => h

theorem Refines.trans {σ : Name → Int} {a b c : SymExpr} (hab : Refines σ a b)
    (hbc : Refines σ b c) : Refines σ a c := fun value h => hbc value (hab value h)

section
variable (w : Int → Int)

/-- Rule 1: fold two constants; a zero divisor is left alone. -/
def foldConstants : SymbolicExprOp → Int → Int → Option Int
  | .add, l, r => some (w (l + r))
  | .sub, l, r => some (w (l - r))
  | .mul, l, r => some (w (l * r))
  | .div, l, r => if r = 0 then none else some (w (l.fdiv r))
  | .mod, l, r => if r = 0 then none else some (w (l - w (w (l.fdiv r) * r)))

/-- Rule 2: identities and zero propagation. -/
def identityRule (opcode : SymbolicExprOp) (lhs rhs : SymExpr) : Option SymExpr :=
  match opcode with
  | .add =>
      if rhs.isConstantValue 0 then some lhs
      else if lhs.isConstantValue 0 then some rhs
      else none
  | .sub =>
      if rhs.isConstantValue 0 then some lhs
      else if areLogicallyEqual lhs rhs then some (.constant 0)
      else none
  | .mul =>
      if rhs.isConstantValue 1 then some lhs
      else if lhs.isConstantValue 1 then some rhs
      else if rhs.isConstantValue 0 then some (.constant 0)
      else if lhs.isConstantValue 0 then some (.constant 0)
      else none
  | .div =>
      if rhs.isConstantValue 1 then some lhs
      else if lhs.isConstantValue 0 then some (.constant 0)
      else none
  | .mod =>
      if rhs.isConstantValue 1 then some (.constant 0)
      else if lhs.isConstantValue 0 then some (.constant 0)
      else none

/-- Rule 3: `(x inner c₁) opcode c₂` becomes `x op c` for the returned `op, c`. -/
def reassociate : SymbolicExprOp → SymbolicExprOp → Int → Int → Option (SymbolicExprOp × Int)
  | .add, .add, c₁, c₂ => some (.add, w (c₁ + c₂))
  | .sub, .add, c₁, c₂ => some (.add, w (c₁ - c₂))
  | .add, .sub, c₁, c₂ => some (.add, w (c₂ - c₁))
  | .sub, .sub, c₁, c₂ => some (.sub, w (c₁ + c₂))
  | .mul, .mul, c₁, c₂ => some (.mul, w (c₁ * c₂))
  | _, _, _, _ => none

/-- `simplifyBinaryExpr`: `none` is the source's null, "keep the node as it is". -/
def simplifyBinaryExpr (opcode : SymbolicExprOp) : SymExpr → SymExpr → Option SymExpr
  | .constant l, .constant r => (foldConstants w opcode l r).map .constant
  | .binary inner x (.constant c₁), .constant c₂ =>
      match identityRule opcode (.binary inner x (.constant c₁)) (.constant c₂) with
      | some expr => some expr
      | none =>
          match reassociate w opcode inner c₁ c₂ with
          | some (op, c) =>
              some ((simplifyBinaryExpr op x (.constant c)).getD (.binary op x (.constant c)))
          | none => none
  | lhs, rhs => identityRule opcode lhs rhs

/-- `getSimplifiedBinaryExpr`. -/
def getSimplifiedBinaryExpr (opcode : SymbolicExprOp) (lhs rhs : SymExpr) : SymExpr :=
  (simplifyBinaryExpr w opcode lhs rhs).getD (.binary opcode lhs rhs)

end

/-! ### Soundness of the rules -/

theorem foldConstants_sound {opcode : SymbolicExprOp} {l r c : Int}
    (h : foldConstants id opcode l r = some c) : opcode.apply l r = some c := by
  cases opcode with
  | add => exact h
  | sub => exact h
  | mul => exact h
  | div =>
      simp only [foldConstants, SymbolicExprOp.apply, id_eq] at h ⊢
      exact h
  | mod =>
      simp only [foldConstants, SymbolicExprOp.apply, id_eq] at h ⊢
      split at h
      · cases h
      · rename_i hr
        rw [if_neg hr, ← h, Int.fmod_def, Int.mul_comm]

/-- A constant on the right that the operator absorbs leaves the left operand. -/
theorem refines_left {σ : Name → Int} {op : SymbolicExprOp} {lhs rhs : SymExpr} {c : Int}
    (hrhs : rhs.isConstantValue c = true) (happly : ∀ l, op.apply l c = some l) :
    Refines σ (.binary op lhs rhs) lhs := by
  intro value hvalue
  rw [isConstantValue_iff] at hrhs
  subst hrhs
  obtain ⟨l, r, hl, hr, h⟩ := eval_binary_eq_some.mp hvalue
  cases hr
  rw [happly] at h
  rw [hl, h]

/-- A constant on the left that the operator absorbs leaves the right operand. -/
theorem refines_right {σ : Name → Int} {op : SymbolicExprOp} {lhs rhs : SymExpr} {c : Int}
    (hlhs : lhs.isConstantValue c = true) (happly : ∀ r, op.apply c r = some r) :
    Refines σ (.binary op lhs rhs) rhs := by
  intro value hvalue
  rw [isConstantValue_iff] at hlhs
  subst hlhs
  obtain ⟨l, r, hl, hr, h⟩ := eval_binary_eq_some.mp hvalue
  cases hl
  rw [happly] at h
  rw [hr, h]

/-- Operands whose combination can only be zero. -/
theorem refines_zero {σ : Name → Int} {op : SymbolicExprOp} {lhs rhs : SymExpr}
    (happly : ∀ l r value, lhs.eval σ = some l → rhs.eval σ = some r →
      op.apply l r = some value → value = 0) :
    Refines σ (.binary op lhs rhs) (.constant 0) := by
  intro value hvalue
  obtain ⟨l, r, hl, hr, h⟩ := eval_binary_eq_some.mp hvalue
  rw [happly l r value hl hr h]
  rfl

theorem eval_of_isConstantValue {σ : Name → Int} {expr : SymExpr} {c v : Int}
    (h : expr.isConstantValue c = true) (hv : expr.eval σ = some v) : v = c := by
  rw [isConstantValue_iff] at h
  subst h
  exact (Option.some.inj hv).symm

theorem identityRule_sound {opcode : SymbolicExprOp} {lhs rhs expr : SymExpr} {σ : Name → Int}
    (h : identityRule opcode lhs rhs = some expr) : Refines σ (.binary opcode lhs rhs) expr := by
  cases opcode with
  | add =>
      simp only [identityRule] at h
      split_ifs at h with hrhs hlhs <;> cases h
      · exact refines_left hrhs fun l => by simp [SymbolicExprOp.apply]
      · exact refines_right hlhs fun r => by simp [SymbolicExprOp.apply]
  | sub =>
      simp only [identityRule] at h
      split_ifs at h with hrhs heq <;> cases h
      · exact refines_left hrhs fun l => by simp [SymbolicExprOp.apply]
      · refine refines_zero fun l r value hl hr happly => ?_
        rw [areLogicallyEqual_eval σ heq, hr] at hl
        cases hl
        simpa [SymbolicExprOp.apply] using happly.symm
  | mul =>
      simp only [identityRule] at h
      split_ifs at h with hone hone' hrhs hlhs <;> cases h
      · exact refines_left hone fun l => by simp [SymbolicExprOp.apply]
      · exact refines_right hone' fun r => by simp [SymbolicExprOp.apply]
      · refine refines_zero fun l r value _ hr happly => ?_
        rw [eval_of_isConstantValue hrhs hr] at happly
        simpa [SymbolicExprOp.apply] using happly.symm
      · refine refines_zero fun l r value hl _ happly => ?_
        rw [eval_of_isConstantValue hlhs hl] at happly
        simpa [SymbolicExprOp.apply] using happly.symm
  | div =>
      simp only [identityRule] at h
      split_ifs at h with hrhs hlhs <;> cases h
      · exact refines_left hrhs fun l => by simp [SymbolicExprOp.apply]
      · refine refines_zero fun l r value hl _ happly => ?_
        rw [eval_of_isConstantValue hlhs hl] at happly
        by_cases hr : r = 0
        · simp [SymbolicExprOp.apply, hr] at happly
        · simpa [SymbolicExprOp.apply, hr] using happly.symm
  | mod =>
      simp only [identityRule] at h
      split_ifs at h with hrhs hlhs <;> cases h
      · refine refines_zero fun l r value _ hr happly => ?_
        rw [eval_of_isConstantValue hrhs hr] at happly
        simpa [SymbolicExprOp.apply] using happly.symm
      · refine refines_zero fun l r value hl _ happly => ?_
        rw [eval_of_isConstantValue hlhs hl] at happly
        by_cases hr : r = 0
        · simp [SymbolicExprOp.apply, hr] at happly
        · simpa [SymbolicExprOp.apply, hr] using happly.symm

theorem reassociate_sound {opcode inner op : SymbolicExprOp} {c₁ c₂ c : Int} {x : SymExpr}
    {σ : Name → Int} (h : reassociate id opcode inner c₁ c₂ = some (op, c)) :
    Refines σ (.binary opcode (.binary inner x (.constant c₁)) (.constant c₂))
      (.binary op x (.constant c)) := by
  intro value hvalue
  obtain ⟨l, r, hl, hr, happly⟩ := eval_binary_eq_some.mp hvalue
  obtain ⟨v, k, hv, hk, hinner⟩ := eval_binary_eq_some.mp hl
  refine eval_binary_eq_some.mpr ⟨v, c, hv, rfl, ?_⟩
  cases hr
  cases hk
  -- only five operator pairs reassociate; each is a ring identity
  cases opcode <;> cases inner <;> simp only [reassociate, reduceCtorEq] at h <;> cases h <;>
    simp only [SymbolicExprOp.apply, Option.some.injEq, id_eq] at * <;> subst hinner <;>
    subst happly <;> ring

/-- Keeping a node that could not be simplified changes nothing, so a sound
    attempt makes a sound node. -/
theorem refines_getD {σ : Name → Int} {old : SymExpr} {attempt : Option SymExpr}
    (h : ∀ {expr}, attempt = some expr → Refines σ old expr) :
    Refines σ old (attempt.getD old) := by
  cases attempt with
  | none => exact .refl σ old
  | some expr => exact h rfl

theorem simplifyBinaryExpr_sound (σ : Name → Int) (opcode : SymbolicExprOp) (lhs rhs : SymExpr) :
    ∀ {expr}, simplifyBinaryExpr id opcode lhs rhs = some expr →
      Refines σ (.binary opcode lhs rhs) expr := by
  fun_induction simplifyBinaryExpr id opcode lhs rhs with
  | case1 opcode l r =>
      intro expr h
      obtain ⟨c, hc, rfl⟩ := Option.map_eq_some_iff.mp h
      intro value hvalue
      rw [eval_binary] at hvalue
      exact (foldConstants_sound hc).symm.trans hvalue
  | case2 opcode inner x c₁ c₂ expr' hrule =>
      rintro expr ⟨⟩
      exact identityRule_sound hrule
  | case3 opcode inner x c₁ c₂ _ op c hop ih =>
      rintro expr ⟨⟩
      exact (reassociate_sound hop).trans (refines_getD ih)
  | case4 =>
      rintro expr ⟨⟩
  | case5 opcode lhs rhs =>
      intro expr h
      exact identityRule_sound h

/-- Simplification with exact constants keeps every value. -/
theorem getSimplifiedBinaryExpr_refines (σ : Name → Int) (opcode : SymbolicExprOp)
    (lhs rhs : SymExpr) :
    Refines σ (.binary opcode lhs rhs) (getSimplifiedBinaryExpr id opcode lhs rhs) :=
  refines_getD (simplifyBinaryExpr_sound σ opcode lhs rhs)

/-- The value of a simplified node, from the values of its operands. -/
theorem getSimplifiedBinaryExpr_eval {σ : Name → Int} {opcode : SymbolicExprOp}
    {lhs rhs : SymExpr} {l r value : Int} (hl : lhs.eval σ = some l) (hr : rhs.eval σ = some r)
    (h : opcode.apply l r = some value) :
    (getSimplifiedBinaryExpr id opcode lhs rhs).eval σ = some value :=
  getSimplifiedBinaryExpr_refines σ opcode lhs rhs value
    (eval_binary_eq_some.mpr ⟨l, r, hl, hr, h⟩)

end SymReloc.SymExpr
