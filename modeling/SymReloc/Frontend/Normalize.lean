import Mathlib.Data.List.Sort
import Mathlib.Data.String.Basic
import SymReloc.Frontend.Values

/-!
# The normal form of frontend expressions

Sums and products are flattened, their constants combined, and their terms sorted by their text;
closed expressions are folded where their checked evaluation succeeds.  Admission compares
expressions by this normal form.
-/

namespace SymReloc.Frontend.Expr

/-! ### Sums and products -/

/-- The two commutative operators. -/
inductive Commutative where
  | add
  | mul
deriving DecidableEq

namespace Commutative

def identity : Commutative → Int
  | add => 0
  | mul => 1

def combine : Commutative → Int → Int → Int
  | add, a, b => a + b
  | mul, a, b => a * b

def node : Commutative → Expr → Expr → Expr
  | add => Expr.add
  | mul => Expr.mul

end Commutative

/-- `collect` of `_commutative`: the operands that are no constants, in order, and the constants
    combined. -/
def collect (kind : Commutative) (state : List Expr × Int) : Expr → List Expr × Int
  | const value => (state.1, kind.combine state.2 value)
  | add lhs rhs =>
      match kind with
      | .add => collect .add (collect .add state lhs) rhs
      | .mul => (state.1 ++ [add lhs rhs], state.2)
  | mul lhs rhs =>
      match kind with
      | .add => (state.1 ++ [mul lhs rhs], state.2)
      | .mul => collect .mul (collect .mul state lhs) rhs
  | expr => (state.1 ++ [expr], state.2)

/-- `terms.sort(key=repr)`. -/
def sortTerms (terms : List Expr) : List Expr :=
  terms.insertionSort fun a b => a.text ≤ b.text

/-- `functools.reduce`, of a list that is not empty. -/
def reduce (kind : Commutative) : List Expr → Expr
  | [] => const kind.identity
  | first :: rest => rest.foldl kind.node first

/-- The end of `_commutative`: the terms with the constant among them, sorted and combined. -/
def assemble (kind : Commutative) (terms : List Expr) (constant : Int) : Expr :=
  if kind = .mul ∧ constant = 0 then const 0
  else reduce kind (sortTerms
    (if constant ≠ kind.identity ∨ terms = [] then terms ++ [const constant] else terms))

/-- `_commutative`. -/
def commutative (kind : Commutative) (lhs rhs : Expr) : Expr :=
  let collected := collect kind (collect kind ([], kind.identity) lhs) rhs
  assemble kind collected.1 collected.2

/-! ### The normal form -/

def isConst : Expr → Bool
  | const _ => true
  | _ => false

/-- `fold_constant`: the checked value of a closed expression; an exception keeps it. -/
def foldConstant (candidate : Expr) : Expr :=
  match candidate.evaluate true [] with
  | .ok value => const value
  | .error _ => candidate

/-- `_normalize_expr`. -/
def normalizeExpr : Expr → Expr
  | add lhs rhs =>
      let l := lhs.normalizeExpr
      let r := rhs.normalizeExpr
      let candidate := foldConstant (add l r)
      if candidate.isConst then candidate else commutative .add l r
  | mul lhs rhs =>
      let l := lhs.normalizeExpr
      let r := rhs.normalizeExpr
      let candidate := foldConstant (mul l r)
      if candidate.isConst then candidate else commutative .mul l r
  | floorDiv lhs divisor positive =>
      if divisor = 1 then lhs.normalizeExpr
      else foldConstant (floorDiv lhs.normalizeExpr divisor positive)
  | mod lhs divisor positive =>
      if divisor = 1 then const 0 else foldConstant (mod lhs.normalizeExpr divisor positive)
  | atom => atom

end SymReloc.Frontend.Expr
