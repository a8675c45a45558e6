import Mathlib.Tactic.Linarith
import SymReloc.Runtime.Eval
import SymReloc.Wire.ExprTree

/-!
# The value of an expression tree

The stack machine runs the postfix stream of a tree as one would evaluate the tree, in
checked 64-bit arithmetic.  It gives the value over the integers exactly where every
subexpression has one that fits and every modulo can be rebuilt from its quotient; in all
other cases it is an error.
-/

namespace SymReloc

open Outcome

/-! ### Quotients -/

/-- The quotient of the runtime is the floor of the exact one. -/
theorem floorDiv_eq_ok {a b value : Int} (h : floorDiv a b = .ok value) :
    b ≠ 0 ∧ ¬ (a = -2 ^ 63 ∧ b = -1) ∧ value = a.fdiv b := by
  unfold floorDiv at h
  split at h
  · cases h
  · rename_i hzero
    split at h
    · cases h
    · rename_i hoverflow
      refine ⟨hzero, hoverflow, ?_⟩
      simp only [Outcome.ok.injEq] at h
      rw [← h, Int.fdiv_eq_tdiv]
      by_cases hdvd : b ∣ a
      · simp [hdvd, Int.tmod_eq_zero_of_dvd hdvd]
      · -- the two quotients differ where the signs do
        have htmod : a.tmod b ≠ 0 := fun hmod => hdvd (Int.dvd_of_tmod_eq_zero hmod)
        rcases Int.lt_or_gt_of_ne hzero with hneg | hpos
        · have hsign := Int.sign_eq_neg_one_of_neg hneg
          by_cases ha : a < 0
          · simp [hdvd, htmod, hneg, ha, hsign]
            omega
          · simp [hdvd, htmod, hneg, ha, hsign]
            omega
        · have hsign := Int.sign_eq_one_of_pos hpos
          by_cases ha : a < 0
          · simp [hdvd, htmod, ha, hsign]
            omega
          · simp [hdvd, htmod, ha, hsign]
            omega

theorem fits_fdiv {a b : Int} (ha : FitsI64 a) (hb : b ≠ 0)
    (hoverflow : ¬ (a = -2 ^ 63 ∧ b = -1)) : FitsI64 (a.fdiv b) := by
  unfold FitsI64 at ha ⊢
  rcases Int.lt_or_gt_of_ne hb with hneg | hpos
  · have hsum := Int.mul_fdiv_add_fmod (-a) (-b)
    have hlo := Int.fmod_nonneg_of_pos (-a) (by omega : 0 < -b)
    have hhi := Int.fmod_lt_of_pos (-a) (by omega : 0 < -b)
    rw [Int.neg_fdiv_neg] at hsum
    generalize a.fdiv b = q at hsum ⊢
    constructor
    · by_contra hlt
      nlinarith
    · by_contra hge
      have hone : b = -1 := by nlinarith
      subst hone
      omega
  · have hsum := Int.mul_fdiv_add_fmod a b
    have hlo := Int.fmod_nonneg_of_pos a hpos
    have hhi := Int.fmod_lt_of_pos a hpos
    generalize a.fdiv b = q at hsum ⊢
    constructor
    · by_contra hlt
      nlinarith
    · by_contra hge
      nlinarith

/-- The quotient is there unless the divisor is zero or the quotient is too large. -/
theorem floorDiv_of_fits {a b : Int} (hb : b ≠ 0) (hfits : FitsI64 (a.fdiv b)) :
    floorDiv a b = .ok (a.fdiv b) := by
  have hmin : ¬ (a = -2 ^ 63 ∧ b = -1) := by
    rintro ⟨rfl, rfl⟩
    exact absurd hfits (by decide)
  have hok : ∃ value, floorDiv a b = .ok value := by
    unfold floorDiv
    rw [if_neg hb, if_neg hmin]
    exact ⟨_, rfl⟩
  obtain ⟨value, hvalue⟩ := hok
  rw [hvalue, (floorDiv_eq_ok hvalue).2.2]

/-! ### Operators -/

/-- The meaning of an operator over the integers: no value at a zero divisor. -/
def StackOp.exact : StackOp → Int → Int → Option Int
  | .add, a, b => some (a + b)
  | .sub, a, b => some (a - b)
  | .mul, a, b => some (a * b)
  | .floorDiv, a, b => if b = 0 then none else some (a.fdiv b)
  | .mod, a, b => if b = 0 then none else some (a.fmod b)

/-- The modulo is `a - q * b`; both the quotient and the product have to fit. -/
def StackOp.Rebuilds (op : StackOp) (a b : Int) : Prop :=
  op = .mod → FitsI64 (a.fdiv b) ∧ FitsI64 (a.fdiv b * b)

theorem evalOp_eq_ok {op : StackOp} {a b value : Int} (ha : FitsI64 a) :
    evalOp op a b = .ok value ↔
      op.exact a b = some value ∧ FitsI64 value ∧ op.Rebuilds a b := by
  have hother : ∀ {p : Prop}, op ≠ .mod → (p ∧ op.Rebuilds a b ↔ p) := fun hne =>
    and_iff_left fun heq => absurd heq hne
  cases op with
  | add =>
      rw [← and_assoc, hother nofun, evalOp, checkedOr_eq_ok]
      simp only [StackOp.exact, Option.some.injEq]
      constructor
      · rintro ⟨hfits, rfl⟩
        exact ⟨rfl, hfits⟩
      · rintro ⟨rfl, hfits⟩
        exact ⟨hfits, rfl⟩
  | sub =>
      rw [← and_assoc, hother nofun, evalOp, checkedOr_eq_ok]
      simp only [StackOp.exact, Option.some.injEq]
      constructor
      · rintro ⟨hfits, rfl⟩
        exact ⟨rfl, hfits⟩
      · rintro ⟨rfl, hfits⟩
        exact ⟨hfits, rfl⟩
  | mul =>
      rw [← and_assoc, hother nofun, evalOp, checkedOr_eq_ok]
      simp only [StackOp.exact, Option.some.injEq]
      constructor
      · rintro ⟨hfits, rfl⟩
        exact ⟨rfl, hfits⟩
      · rintro ⟨rfl, hfits⟩
        exact ⟨hfits, rfl⟩
  | floorDiv =>
      rw [← and_assoc, hother nofun, evalOp]
      constructor
      · intro h
        obtain ⟨hb, hmin, rfl⟩ := floorDiv_eq_ok h
        exact ⟨if_neg hb, fits_fdiv ha hb hmin⟩
      · rintro ⟨hexact, hfits⟩
        simp only [StackOp.exact] at hexact
        split at hexact
        · cases hexact
        · rename_i hb
          cases hexact
          exact floorDiv_of_fits hb hfits
  | mod =>
      simp only [evalOp, bind_ok_iff, checkedOr_eq_ok]
      constructor
      · rintro ⟨quotient, hquotient, product, ⟨hproduct, rfl⟩, hfits, rfl⟩
        obtain ⟨hb, hmin, rfl⟩ := floorDiv_eq_ok hquotient
        refine ⟨?_, hfits, fun _ => ⟨fits_fdiv ha hb hmin, hproduct⟩⟩
        rw [StackOp.exact, if_neg hb, Int.fmod_def, mul_comm]
      · rintro ⟨hexact, hfits, hrebuilds⟩
        obtain ⟨hquotient, hproduct⟩ := hrebuilds rfl
        simp only [StackOp.exact] at hexact
        split at hexact
        · cases hexact
        · rename_i hb
          cases hexact
          have hsame : a.fmod b = a - a.fdiv b * b := by rw [Int.fmod_def, mul_comm]
          exact ⟨_, floorDiv_of_fits hb hquotient, _, ⟨hproduct, rfl⟩, hsame ▸ hfits, hsame⟩

/-! ### Trees -/

namespace ExprTree

/-- The value of a coordinate, in a context that has coordinates. -/
def coordinate (dims : Option (List Int)) (index : Nat) : Option Int :=
  dims.bind fun values => values[index]?

/-- The value over the integers. -/
def exact (symbols : List Int) (dims : Option (List Int)) (tree : ExprTree) : Option Int :=
  tree.evalWith StackOp.exact (fun index => symbols[index]?) (coordinate dims)

/-- Constants are 64-bit operands of their tokens. -/
def ConstantsFit : ExprTree → Prop
  | .const value => FitsI64 value
  | .node _ lhs rhs => lhs.ConstantsFit ∧ rhs.ConstantsFit
  | _ => True

/-- No divisor is zero, and the value of every subexpression is a 64-bit number. -/
def Representable (symbols : List Int) (dims : Option (List Int)) : ExprTree → Prop
  | .node op lhs rhs =>
      lhs.Representable symbols dims ∧ rhs.Representable symbols dims ∧
        ∃ value, (node op lhs rhs).exact symbols dims = some value ∧ FitsI64 value
  | tree => ∃ value, tree.exact symbols dims = some value ∧ FitsI64 value

/-- Every modulo can be rebuilt from its quotient. -/
def Rebuilds (symbols : List Int) (dims : Option (List Int)) : ExprTree → Prop
  | .node op lhs rhs =>
      lhs.Rebuilds symbols dims ∧ rhs.Rebuilds symbols dims ∧
        ∀ a b, lhs.exact symbols dims = some a → rhs.exact symbols dims = some b →
          op.Rebuilds a b
  | _ => True

/-- The checked evaluation of the tree, the left operand first. -/
def checked (symbols : List Int) (dims : Option (List Int)) : ExprTree → Outcome EvalError Int
  | .sym index =>
      match symbols[index]? with
      | some value => .ok value
      | none => .error .symbolIndex
  | .const value => .ok value
  | .dim index =>
      match dims with
      | none => .error .pushDim
      | some dims =>
          match dims[index]? with
          | some value => .ok value
          | none => .error .dimIndex
  | .node op lhs rhs => do
      let a ← lhs.checked symbols dims
      let b ← rhs.checked symbols dims
      evalOp op a b

variable {symbols : List Int} {dims : Option (List Int)}

theorem evalTokens_stream (tree : ExprTree) (rest : ExprStream) (stack : List Int) :
    evalTokens symbols dims (tree.stream ++ rest) stack =
      (tree.checked symbols dims >>= fun value =>
        evalTokens symbols dims rest (value :: stack)) := by
  induction tree generalizing rest stack with
  | sym index =>
      simp only [stream, checked, List.cons_append, List.nil_append, evalTokens, evalToken]
      cases symbols[index]? <;> rfl
  | const value => rfl
  | dim index =>
      simp only [stream, checked, List.cons_append, List.nil_append, evalTokens, evalToken]
      cases dims with
      | none => rfl
      | some values =>
          dsimp only
          cases values[index]? <;> rfl
  | node op lhs rhs ihl ihr =>
      simp only [stream, checked, List.append_assoc, ihl, List.cons_append, List.nil_append]
      cases lhs.checked symbols dims with
      | ok a =>
          show evalTokens symbols dims (rhs.stream ++ .apply op :: rest) (a :: stack) = _
          rw [ihr]
          cases rhs.checked symbols dims with
          | ok b =>
              show evalTokens symbols dims (.apply op :: rest) (b :: a :: stack) = _
              rw [evalTokens, evalToken]
              show (evalOp op a b >>= fun result => pure (result :: stack)) >>= _ =
                evalOp op a b >>= _
              cases evalOp op a b <;> rfl
          | error reason => rfl
          | fault kind => rfl
      | error reason => rfl
      | fault kind => rfl

theorem evalStream_stream (tree : ExprTree) :
    evalStream tree.stream symbols dims = tree.checked symbols dims := by
  have htokens : evalTokens symbols dims (tree.stream ++ []) [] = _ :=
    evalTokens_stream tree [] []
  rw [List.append_nil] at htokens
  rw [evalStream, htokens]
  cases tree.checked symbols dims <;> rfl

theorem exact_node {op : StackOp} {lhs rhs : ExprTree} {a b : Int}
    (hlhs : lhs.exact symbols dims = some a) (hrhs : rhs.exact symbols dims = some b) :
    (node op lhs rhs).exact symbols dims = op.exact a b := by
  simp only [exact] at hlhs hrhs ⊢
  rw [evalWith, hlhs, hrhs]
  rfl

theorem Representable.exact_fits {tree : ExprTree} (h : tree.Representable symbols dims) :
    ∃ value, tree.exact symbols dims = some value ∧ FitsI64 value := by
  cases tree with
  | sym index => exact h
  | const value => exact h
  | dim index => exact h
  | node op lhs rhs => exact h.2.2

/-- The checked evaluation has the exact value, where there is one that can be reached. -/
theorem checked_eq_ok {tree : ExprTree} (hconstants : tree.ConstantsFit)
    (hsymbols : ∀ value ∈ symbols, FitsI64 value)
    (hdims : ∀ values ∈ dims, ∀ value ∈ values, FitsI64 value) {value : Int} :
    tree.checked symbols dims = .ok value ↔ tree.Representable symbols dims ∧
      tree.Rebuilds symbols dims ∧ tree.exact symbols dims = some value := by
  induction tree generalizing value with
  | sym index =>
      simp only [checked, Representable, Rebuilds, exact, evalWith, true_and]
      cases hget : symbols[index]? with
      | none => simp
      | some v =>
          have hfits := hsymbols v (List.mem_of_getElem? hget)
          simp [hfits]
  | const v =>
      have hfits : FitsI64 v := hconstants
      simp [checked, Representable, Rebuilds, exact, evalWith, hfits]
  | dim index =>
      simp only [checked, Representable, Rebuilds, exact, evalWith, true_and, coordinate]
      cases dims with
      | none => simp
      | some values =>
          dsimp only [Option.bind_some]
          cases hget : values[index]? with
          | none => simp
          | some v =>
              have hfits := hdims values rfl v (List.mem_of_getElem? hget)
              simp [hfits]
  | node op lhs rhs ihl ihr =>
      simp only [checked, bind_ok_iff]
      constructor
      · rintro ⟨a, ha, b, hb, hop⟩
        obtain ⟨hrl, hbl, hl⟩ := (ihl hconstants.1).1 ha
        obtain ⟨hrr, hbr, hr⟩ := (ihr hconstants.2).1 hb
        obtain ⟨a', hl', hfits⟩ := hrl.exact_fits
        cases hl.symm.trans hl'
        obtain ⟨hexact, hvalue, hrebuilds⟩ := (evalOp_eq_ok hfits).1 hop
        have hnode := (exact_node hl hr).trans hexact
        refine ⟨⟨hrl, hrr, value, hnode, hvalue⟩, ⟨hbl, hbr, fun a' b' ha' hb' => ?_⟩, hnode⟩
        cases hl.symm.trans ha'
        cases hr.symm.trans hb'
        exact hrebuilds
      · rintro ⟨⟨hrl, hrr, v, hnode, hvalue⟩, ⟨hbl, hbr, hrebuilds⟩, hexact⟩
        obtain ⟨a, hl, hfits⟩ := hrl.exact_fits
        obtain ⟨b, hr, -⟩ := hrr.exact_fits
        cases hnode.symm.trans hexact
        rw [exact_node hl hr] at hnode
        exact ⟨a, (ihl hconstants.1).2 ⟨hrl, hbl, hl⟩, b, (ihr hconstants.2).2 ⟨hrr, hbr, hr⟩,
          (evalOp_eq_ok hfits).2 ⟨hnode, hvalue, hrebuilds a b hl hr⟩⟩

/-- The evaluation stops with a value or an error. -/
theorem checked_ends (tree : ExprTree) :
    (tree.checked symbols dims).Ensures (fun _ => True) fun _ => True := by
  induction tree with
  | sym index =>
      unfold checked
      split <;> trivial
  | const value => trivial
  | dim index =>
      unfold checked
      split
      · trivial
      · split <;> trivial
  | node op lhs rhs ihl ihr =>
      have hop : ∀ a b, (evalOp op a b).Ensures (fun _ => True) fun _ => True := by
        intro a b
        have hvalues := ensures_evalOp op a b
        cases hrun : evalOp op a b with
        | ok value => trivial
        | error reason => trivial
        | fault kind => exact absurd hrun (hvalues.not_fault kind)
      exact ihl.bind fun a _ => ihr.bind fun b _ => hop a b

/-- The stream of a tree evaluates to the exact value of the tree when every subexpression has
    a 64-bit value and every modulo can be rebuilt, and to an error in every other case. -/
theorem evalStream_exact (tree : ExprTree) (symbols : List Int) (dims : Option (List Int))
    (hconstants : tree.ConstantsFit) (hsymbols : ∀ value ∈ symbols, FitsI64 value)
    (hdims : ∀ values ∈ dims, ∀ value ∈ values, FitsI64 value) :
    (tree.Representable symbols dims ∧ tree.Rebuilds symbols dims →
      ∃ value, tree.exact symbols dims = some value ∧
        evalStream tree.stream symbols dims = .ok value) ∧
    (¬ (tree.Representable symbols dims ∧ tree.Rebuilds symbols dims) →
      ∃ reason, evalStream tree.stream symbols dims = .error reason) := by
  rw [evalStream_stream]
  have hiff := fun value => @checked_eq_ok symbols dims tree hconstants hsymbols hdims value
  constructor
  · rintro ⟨hrepresentable, hrebuilds⟩
    obtain ⟨value, hexact, -⟩ := hrepresentable.exact_fits
    exact ⟨value, hexact, (hiff value).2 ⟨hrepresentable, hrebuilds, hexact⟩⟩
  · intro hnot
    have hends : (tree.checked symbols dims).Ensures _ _ := tree.checked_ends
    cases hrun : tree.checked symbols dims with
    | ok value =>
        obtain ⟨hrepresentable, hrebuilds, -⟩ := (hiff value).1 hrun
        exact absurd ⟨hrepresentable, hrebuilds⟩ hnot
    | error reason => exact ⟨reason, rfl⟩
    | fault kind => exact absurd hrun (hends.not_fault kind)

/-- `(s0 + -7) mod 4` at `s0 = 2`: both the quotient and the product are negative. -/
def shifted : ExprTree := .node .mod (.node .add (.sym 0) (.const (-7))) (.const 4)

theorem shifted_rebuilds : shifted.Representable [2] none ∧ shifted.Rebuilds [2] none := by
  have hsum : (node .add (.sym 0) (.const (-7))).exact [2] none = some (-5) := rfl
  refine ⟨⟨⟨⟨2, rfl, by decide⟩, ⟨-7, rfl, by decide⟩, -5, hsum, by decide⟩,
    ⟨4, rfl, by decide⟩, 3, by decide, by decide⟩, ⟨trivial, trivial, nofun⟩, trivial, ?_⟩
  intro a b ha hb _
  cases hsum.symm.trans ha
  have hfour : (const 4).exact [2] none = some 4 := rfl
  cases hfour.symm.trans hb
  decide

theorem evalStream_exact_shifted : ∃ value, shifted.exact [2] none = some value ∧
    evalStream shifted.stream [2] none = .ok value :=
  (evalStream_exact shifted [2] none ⟨⟨trivial, (by decide : FitsI64 (-7))⟩,
    (by decide : FitsI64 4)⟩ (by decide) (by simp)).1 shifted_rebuilds

/-- `(2^63 - 1) mod -3` is `-2`, but the quotient times the divisor is `2^63 + 1`. -/
theorem remainder_not_rebuilt :
    let tree := node .mod (.const (2 ^ 63 - 1)) (.const (-3))
    tree.ConstantsFit ∧ tree.Representable [] none ∧ tree.exact [] none = some (-2) ∧
      evalStream tree.stream [] none = .error .modOverflow :=
  ⟨⟨(by decide : FitsI64 (2 ^ 63 - 1)), (by decide : FitsI64 (-3))⟩,
    ⟨⟨_, rfl, by decide⟩, ⟨_, rfl, by decide⟩, -2, by decide, by decide⟩,
    by decide, by decide⟩

end ExprTree

end SymReloc
