import Mathlib.Data.Option.Basic
import Mathlib.Tactic.Common
import Mathlib.Data.List.Basic

/-!
# Symbolic expressions

The `sym` dialect's expressions are symbols, 64-bit constants and binary nodes.
This module gives them their meaning (a partial integer, since a divisor may be
zero), the order in which they first use their symbols, and the dialect's test
for logical equality, which is structural up to swapping the operands of a sum
or a product.

`areLogicallyEqual_eval` is the main result: two expressions the test accepts
have the same value under every assignment.
-/

namespace SymReloc

/-- A symbol or axis name, as the bytes of the string. -/
abbrev Name := List UInt8

instance : LawfulBEq Name := inferInstance

/-- A name inside a message, one character for each byte. -/
def nameText (name : Name) : String := String.ofList (name.map fun byte => Char.ofNat byte.toNat)

/-- The five operators; `div` is floor division and `mod` the floor modulo. -/
inductive SymbolicExprOp where
  | add
  | sub
  | mul
  | div
  | mod
deriving DecidableEq, Repr

namespace SymbolicExprOp

/-- The exact meaning of an operator: no value at a zero divisor. -/
def apply : SymbolicExprOp → Int → Int → Option Int
  | .add, l, r => some (l + r)
  | .sub, l, r => some (l - r)
  | .mul, l, r => some (l * r)
  | .div, l, r => if r = 0 then none else some (l.fdiv r)
  | .mod, l, r => if r = 0 then none else some (l.fmod r)

/-- The operators whose operands may be swapped. -/
def commutative : SymbolicExprOp → Bool
  | .add | .mul => true
  | .sub | .div | .mod => false

theorem apply_comm {op : SymbolicExprOp} (hop : op.commutative = true) (l r : Int) :
    op.apply l r = op.apply r l := by
  cases op with
  | add => simp only [apply, Int.add_comm]
  | mul => simp only [apply, Int.mul_comm]
  | sub => cases hop
  | div => cases hop
  | mod => cases hop

end SymbolicExprOp

/-- `#sym.symbol`, `#sym.constant` and `#sym.binary`. -/
inductive SymExpr where
  | symbol (name : Name)
  | constant (value : Int)
  | binary (opcode : SymbolicExprOp) (lhs rhs : SymExpr)
deriving DecidableEq, Repr

namespace SymExpr

/-! ### Meaning -/

/-- Evaluate under a meaning of the operators that may refuse its operands. -/
def evalWith (sem : SymbolicExprOp → Int → Int → Option Int) (σ : Name → Int) :
    SymExpr → Option Int
  | .symbol name => some (σ name)
  | .constant value => some value
  | .binary opcode lhs rhs =>
      (lhs.evalWith sem σ).bind fun l => (rhs.evalWith sem σ).bind fun r => sem opcode l r

/-- The value over the integers. -/
abbrev eval (σ : Name → Int) (expr : SymExpr) : Option Int :=
  expr.evalWith SymbolicExprOp.apply σ

@[simp] theorem evalWith_symbol (sem : SymbolicExprOp → Int → Int → Option Int)
    (σ : Name → Int) (name : Name) : (symbol name).evalWith sem σ = some (σ name) := rfl

@[simp] theorem evalWith_constant (sem : SymbolicExprOp → Int → Int → Option Int)
    (σ : Name → Int) (value : Int) : (constant value).evalWith sem σ = some value := rfl

theorem evalWith_binary (sem : SymbolicExprOp → Int → Int → Option Int) (σ : Name → Int)
    (opcode : SymbolicExprOp) (lhs rhs : SymExpr) :
    (binary opcode lhs rhs).evalWith sem σ =
      (lhs.evalWith sem σ).bind fun l => (rhs.evalWith sem σ).bind fun r => sem opcode l r := rfl

theorem eval_binary (σ : Name → Int) (opcode : SymbolicExprOp) (lhs rhs : SymExpr) :
    (binary opcode lhs rhs).eval σ =
      (lhs.eval σ).bind fun l => (rhs.eval σ).bind fun r => opcode.apply l r := rfl

theorem eval_binary_eq_some {σ : Name → Int} {opcode : SymbolicExprOp} {lhs rhs : SymExpr}
    {value : Int} :
    (binary opcode lhs rhs).eval σ = some value ↔
      ∃ l r, lhs.eval σ = some l ∧ rhs.eval σ = some r ∧ opcode.apply l r = some value := by
  simp only [eval_binary, Option.bind_eq_some_iff]
  constructor
  · rintro ⟨l, hl, r, hr, h⟩
    exact ⟨l, r, hl, hr, h⟩
  · rintro ⟨l, r, hl, hr, h⟩
    exact ⟨l, hl, r, hr, h⟩

/-! ### Symbols in order of first use -/

/-- The symbol names of an expression, left to right, with repetitions. -/
def symbolNames : SymExpr → List Name
  | .symbol name => [name]
  | .constant _ => []
  | .binary _ lhs rhs => lhs.symbolNames ++ rhs.symbolNames

/-! ### Logical equality -/

/-- `UnificationSolver::areLogicallyEqual`: structural equality, except that the
    operands of a sum or a product may come in either order. -/
def areLogicallyEqual : SymExpr → SymExpr → Bool
  | .constant l, .constant r => l == r
  | .symbol l, .symbol r => l == r
  | .binary op l r, .binary op' l' r' =>
      op == op' &&
        ((areLogicallyEqual l l' && areLogicallyEqual r r') ||
          (op.commutative && (areLogicallyEqual l r' && areLogicallyEqual r l')))
  | _, _ => false

/-- The dialect first compares attributes for identity; structural recursion
    answers `true` there by itself. -/
@[simp] theorem areLogicallyEqual_self (expr : SymExpr) :
    areLogicallyEqual expr expr = true := by
  induction expr with
  | symbol name => simp only [areLogicallyEqual, beq_self_eq_true]
  | constant value => simp only [areLogicallyEqual, beq_self_eq_true]
  | binary opcode lhs rhs ihl ihr =>
      simp only [areLogicallyEqual, ihl, ihr, beq_self_eq_true, Bool.and_self, Bool.true_or]

theorem eval_binary_swap {op : SymbolicExprOp} (hop : op.commutative = true) (σ : Name → Int)
    (lhs rhs : SymExpr) : (binary op lhs rhs).eval σ = (binary op rhs lhs).eval σ := by
  rw [eval_binary, eval_binary]
  cases lhs.eval σ with
  | none => cases rhs.eval σ <;> rfl
  | some l =>
      cases rhs.eval σ with
      | none => rfl
      | some r => exact SymbolicExprOp.apply_comm hop l r

/-- Logically equal expressions have the same value, or both have none. -/
theorem areLogicallyEqual_eval (σ : Name → Int) :
    ∀ {lhs rhs : SymExpr}, areLogicallyEqual lhs rhs = true → lhs.eval σ = rhs.eval σ
  | .constant l, .constant r, h => by
      rw [areLogicallyEqual, beq_iff_eq] at h
      rw [h]
  | .symbol l, .symbol r, h => by
      rw [areLogicallyEqual, beq_iff_eq] at h
      rw [h]
  | .binary op l r, .binary op' l' r', h => by
      simp only [areLogicallyEqual, Bool.and_eq_true, Bool.or_eq_true, beq_iff_eq] at h
      obtain ⟨rfl, ⟨hl, hr⟩ | ⟨hop, hl, hr⟩⟩ := h
      · rw [eval_binary, eval_binary, areLogicallyEqual_eval σ hl, areLogicallyEqual_eval σ hr]
      · -- the operands match crosswise, so one side is swapped first
        rw [eval_binary_swap hop σ l' r', eval_binary, eval_binary,
          areLogicallyEqual_eval σ hl, areLogicallyEqual_eval σ hr]
  | .constant _, .symbol _, h => by simp [areLogicallyEqual] at h
  | .constant _, .binary .., h => by simp [areLogicallyEqual] at h
  | .symbol _, .constant _, h => by simp [areLogicallyEqual] at h
  | .symbol _, .binary .., h => by simp [areLogicallyEqual] at h
  | .binary .., .constant _, h => by simp [areLogicallyEqual] at h
  | .binary .., .symbol _, h => by simp [areLogicallyEqual] at h

/-- `UnificationSolver::isConstantValue`. -/
def isConstantValue : SymExpr → Int → Bool
  | .constant c, value => c == value
  | _, _ => false

theorem isConstantValue_iff {expr : SymExpr} {value : Int} :
    expr.isConstantValue value = true ↔ expr = .constant value := by
  cases expr <;> simp [isConstantValue]

end SymExpr

end SymReloc
