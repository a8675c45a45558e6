import SymReloc.Runtime.Machine
import SymReloc.Sym.Simplify

/-!
# Simplification in signed words

The simplifier folds constants as plain signed words, without the overflow checks of
the runtime's evaluator.  Here each fold is an operation that is undefined when its
result does not fit.  `foldedConstants` lists the results over the integers: the
simplifier returns an expression, and one with the values of the node it replaces,
exactly when all of them fit.
-/

namespace SymReloc.SymExpr

open Outcome

section
variable {ε : Type}

/-- Rule 1 in signed words. -/
def foldConstants64 : SymbolicExprOp → Int → Int → Outcome ε (Option Int)
  | .add, l, r => do
      let result ← add64 l r
      pure (some result)
  | .sub, l, r => do
      let result ← sub64 l r
      pure (some result)
  | .mul, l, r => do
      let result ← mul64 l r
      pure (some result)
  | .div, l, r =>
      if r = 0 then .ok none
      else do
        let quotient ← exact64 (l.fdiv r)
        pure (some quotient)
  | .mod, l, r =>
      if r = 0 then .ok none
      else do
        let quotient ← exact64 (l.fdiv r)
        let product ← mul64 quotient r
        let result ← sub64 l product
        pure (some result)

/-- The new constant of rule 3 in signed words. -/
def reassociate64 (opcode inner : SymbolicExprOp) (c₁ c₂ : Int) :
    Outcome ε (Option (SymbolicExprOp × Int)) :=
  match reassociate id opcode inner c₁ c₂ with
  | some (op, c) => do
      let c ← exact64 c
      pure (some (op, c))
  | none => .ok none

/-- `simplifyBinaryExpr` in signed words. -/
def simplifyBinaryExpr64 (opcode : SymbolicExprOp) :
    SymExpr → SymExpr → Outcome ε (Option SymExpr)
  | .constant l, .constant r => do
      let folded ← foldConstants64 opcode l r
      pure (folded.map .constant)
  | .binary inner x (.constant c₁), .constant c₂ =>
      match identityRule opcode (.binary inner x (.constant c₁)) (.constant c₂) with
      | some expr => .ok (some expr)
      | none => do
          let folded ← reassociate64 opcode inner c₁ c₂
          match folded with
          | some (op, c) => do
              let simplified ← simplifyBinaryExpr64 op x (.constant c)
              pure (some (simplified.getD (.binary op x (.constant c))))
          | none => .ok none
  | lhs, rhs => .ok (identityRule opcode lhs rhs)

/-- `getSimplifiedBinaryExpr` in signed words. -/
def getSimplifiedBinaryExpr64 (opcode : SymbolicExprOp) (lhs rhs : SymExpr) :
    Outcome ε SymExpr := do
  let simplified ← simplifyBinaryExpr64 opcode lhs rhs
  pure (simplified.getD (.binary opcode lhs rhs))

end

/-! ### The constants of a simplification -/

/-- The results of folding two constants, over the integers. -/
def foldResults : SymbolicExprOp → Int → Int → List Int
  | .add, l, r => [l + r]
  | .sub, l, r => [l - r]
  | .mul, l, r => [l * r]
  | .div, l, r => if r = 0 then [] else [l.fdiv r]
  | .mod, l, r => if r = 0 then [] else [l.fdiv r, l.fdiv r * r, l - l.fdiv r * r]

/-- The constants a simplification makes, over the integers: those of a fold, or the
    partial sums (products) of the constants that trail the left operand. -/
def foldedConstants (opcode : SymbolicExprOp) : SymExpr → SymExpr → List Int
  | .constant l, .constant r => foldResults opcode l r
  | .binary inner x (.constant c₁), .constant c₂ =>
      match identityRule opcode (.binary inner x (.constant c₁)) (.constant c₂) with
      | some _ => []
      | none =>
          match reassociate id opcode inner c₁ c₂ with
          | some (op, c) => c :: foldedConstants op x (.constant c)
          | none => []
  | _, _ => []

/-! ### Agreement with the exact simplifier -/

theorem exact64_bind_eq_ok {ε α : Type} {value : Int} {next : Int → Outcome ε α} {result : α} :
    (exact64 value >>= next) = .ok result ↔ FitsI64 value ∧ next value = .ok result := by
  unfold exact64
  split <;> simp [*]

theorem foldConstants64_eq_ok {ε : Type} {opcode : SymbolicExprOp} {l r : Int}
    {folded : Option Int} : (foldConstants64 opcode l r : Outcome ε _) = .ok folded ↔
      (∀ c ∈ foldResults opcode l r, FitsI64 c) ∧ foldConstants id opcode l r = folded := by
  cases opcode with
  | add => simp [foldConstants64, foldResults, foldConstants, add64, exact64_bind_eq_ok]
  | sub => simp [foldConstants64, foldResults, foldConstants, sub64, exact64_bind_eq_ok]
  | mul => simp [foldConstants64, foldResults, foldConstants, mul64, exact64_bind_eq_ok]
  | div =>
      by_cases hr : r = 0
      · simp [foldConstants64, foldResults, foldConstants, hr]
      · simp [foldConstants64, foldResults, foldConstants, hr, exact64_bind_eq_ok]
  | mod =>
      by_cases hr : r = 0
      · simp [foldConstants64, foldResults, foldConstants, hr]
      · simp [foldConstants64, foldResults, foldConstants, hr, mul64, sub64, exact64_bind_eq_ok,
          and_assoc]

theorem simplifyBinaryExpr64_eq_ok {ε : Type} {opcode : SymbolicExprOp} {lhs rhs : SymExpr}
    {simplified : Option SymExpr} :
    (simplifyBinaryExpr64 opcode lhs rhs : Outcome ε _) = .ok simplified ↔
      (∀ c ∈ foldedConstants opcode lhs rhs, FitsI64 c) ∧
        simplifyBinaryExpr id opcode lhs rhs = simplified := by
  fun_induction simplifyBinaryExpr id opcode lhs rhs generalizing simplified with
  | case1 opcode l r =>
      simp only [simplifyBinaryExpr64, foldedConstants, bind_ok_iff, foldConstants64_eq_ok,
        pure_eq, Outcome.ok.injEq]
      constructor
      · rintro ⟨_, ⟨hfits, rfl⟩, rfl⟩
        exact ⟨hfits, rfl⟩
      · rintro ⟨hfits, rfl⟩
        exact ⟨_, ⟨hfits, rfl⟩, rfl⟩
  | case2 opcode inner x c₁ c₂ expr hrule =>
      simp [simplifyBinaryExpr64, foldedConstants, hrule]
  | case3 opcode inner x c₁ c₂ hrule op c hop ih =>
      have hfolded : foldedConstants opcode (.binary inner x (.constant c₁)) (.constant c₂) =
          c :: foldedConstants op x (.constant c) := by
        simp only [foldedConstants, hrule, hop]
      simp only [simplifyBinaryExpr64, hrule, reassociate64, hop, Outcome.bind_assoc,
        exact64_bind_eq_ok, pure_eq, ok_bind, hfolded, List.forall_mem_cons, and_assoc]
      simp only [bind_ok_iff, ih, Outcome.ok.injEq]
      constructor
      · rintro ⟨hc, _, ⟨hrest, rfl⟩, rfl⟩
        exact ⟨hc, hrest, rfl⟩
      · rintro ⟨hc, hrest, rfl⟩
        exact ⟨hc, _, ⟨hrest, rfl⟩, rfl⟩
  | case4 opcode inner x c₁ c₂ hrule hop =>
      simp [simplifyBinaryExpr64, foldedConstants, hrule, reassociate64, hop]
  | case5 opcode lhs rhs hconstants htrailing =>
      rw [simplifyBinaryExpr64.eq_3 _ _ _ hconstants htrailing,
        foldedConstants.eq_3 _ _ _ hconstants htrailing]
      simp

theorem getSimplifiedBinaryExpr64_eq_ok {ε : Type} {opcode : SymbolicExprOp}
    {lhs rhs expr : SymExpr} :
    (getSimplifiedBinaryExpr64 opcode lhs rhs : Outcome ε _) = .ok expr ↔
      (∀ c ∈ foldedConstants opcode lhs rhs, FitsI64 c) ∧
        getSimplifiedBinaryExpr id opcode lhs rhs = expr := by
  rw [getSimplifiedBinaryExpr64, bind_ok_iff]
  simp only [simplifyBinaryExpr64_eq_ok, pure_eq, Outcome.ok.injEq]
  constructor
  · rintro ⟨_, ⟨hfits, rfl⟩, rfl⟩
    exact ⟨hfits, rfl⟩
  · rintro ⟨hfits, rfl⟩
    exact ⟨_, ⟨hfits, rfl⟩, rfl⟩

/-! ### Agreement with two's complement -/

theorem foldConstants_wrap64 {opcode : SymbolicExprOp} {l r : Int}
    (h : ∀ c ∈ foldResults opcode l r, FitsI64 c) :
    foldConstants wrap64 opcode l r = foldConstants id opcode l r := by
  cases opcode with
  | add => simp [foldConstants, wrap64_of_fits (h _ (List.mem_singleton_self _))]
  | sub => simp [foldConstants, wrap64_of_fits (h _ (List.mem_singleton_self _))]
  | mul => simp [foldConstants, wrap64_of_fits (h _ (List.mem_singleton_self _))]
  | div =>
      by_cases hr : r = 0
      · simp [foldConstants, hr]
      · simp only [foldResults, if_neg hr, List.forall_mem_singleton] at h
        simp [foldConstants, hr, wrap64_of_fits h]
  | mod =>
      by_cases hr : r = 0
      · simp [foldConstants, hr]
      · simp only [foldResults, if_neg hr, List.forall_mem_cons] at h
        obtain ⟨hquotient, hproduct, hrest, -⟩ := h
        simp [foldConstants, hr, wrap64_of_fits hquotient, wrap64_of_fits hproduct,
          wrap64_of_fits hrest]

theorem reassociate_wrap64 (opcode inner : SymbolicExprOp) (c₁ c₂ : Int) :
    reassociate wrap64 opcode inner c₁ c₂ =
      (reassociate id opcode inner c₁ c₂).map fun found => (found.1, wrap64 found.2) := by
  cases opcode <;> cases inner <;> rfl

/-- Where no constant leaves the words, storing them in words changes nothing. -/
theorem simplifyBinaryExpr_wrap64 {opcode : SymbolicExprOp} {lhs rhs : SymExpr}
    (h : ∀ c ∈ foldedConstants opcode lhs rhs, FitsI64 c) :
    simplifyBinaryExpr wrap64 opcode lhs rhs = simplifyBinaryExpr id opcode lhs rhs := by
  fun_induction foldedConstants opcode lhs rhs with
  | case1 opcode l r => simp [simplifyBinaryExpr, foldConstants_wrap64 h]
  | case2 opcode inner x c₁ c₂ expr hrule => simp [simplifyBinaryExpr, hrule]
  | case3 opcode inner x c₁ c₂ hrule op c hop ih =>
      rw [List.forall_mem_cons] at h
      have hwrap : reassociate wrap64 opcode inner c₁ c₂ = some (op, c) := by
        rw [reassociate_wrap64, hop, Option.map_some, wrap64_of_fits h.1]
      simp only [simplifyBinaryExpr, hrule, hop, hwrap, ih h.2]
  | case4 opcode inner x c₁ c₂ hrule hop =>
      have hwrap : reassociate wrap64 opcode inner c₁ c₂ = none := by
        rw [reassociate_wrap64, hop, Option.map_none]
      simp only [simplifyBinaryExpr, hrule, hop, hwrap]
  | case5 opcode lhs rhs hconstants htrailing =>
      rw [simplifyBinaryExpr.eq_3 _ _ _ _ hconstants htrailing,
        simplifyBinaryExpr.eq_3 _ _ _ _ hconstants htrailing]

theorem getSimplifiedBinaryExpr_wrap64 {opcode : SymbolicExprOp} {lhs rhs : SymExpr}
    (h : ∀ c ∈ foldedConstants opcode lhs rhs, FitsI64 c) :
    getSimplifiedBinaryExpr wrap64 opcode lhs rhs =
      getSimplifiedBinaryExpr id opcode lhs rhs := by
  rw [getSimplifiedBinaryExpr, simplifyBinaryExpr_wrap64 h, getSimplifiedBinaryExpr]

/-! ### The exact condition -/

/-- The simplifier returns an expression that keeps every value exactly when no
    constant it makes leaves the signed words. -/
theorem getSimplifiedBinaryExpr_sound_iff (opcode : SymbolicExprOp) (lhs rhs : SymExpr) :
    (∃ expr, (getSimplifiedBinaryExpr64 opcode lhs rhs : Outcome Unit _) = .ok expr ∧
        ∀ σ, Refines σ (.binary opcode lhs rhs) expr) ↔
      ∀ c ∈ foldedConstants opcode lhs rhs, FitsI64 c := by
  constructor
  · rintro ⟨expr, hrun, -⟩
    exact (getSimplifiedBinaryExpr64_eq_ok.mp hrun).1
  · intro hfits
    exact ⟨_, getSimplifiedBinaryExpr64_eq_ok.mpr ⟨hfits, rfl⟩,
      fun σ => getSimplifiedBinaryExpr_refines σ opcode lhs rhs⟩

/-- The largest word added to a symbol. -/
def nextToLargest : SymExpr := .binary .add (.symbol [120]) (.constant (2 ^ 63 - 1))

/-- Adding one more: the fold of the two constants overflows, and the expression that
    two's complement makes of it has another value at `-1`. -/
theorem getSimplifiedBinaryExpr_overflow :
    (getSimplifiedBinaryExpr64 .add nextToLargest (.constant 1) : Outcome Unit _) =
        .fault .signedOverflow ∧
      (SymExpr.binary .add nextToLargest (.constant 1)).eval (fun _ => -1) = some (2 ^ 63 - 1) ∧
      (getSimplifiedBinaryExpr wrap64 .add nextToLargest (.constant 1)).eval (fun _ => -1) =
        some (-2 ^ 63 - 1) := by
  decide +kernel

end SymReloc.SymExpr
