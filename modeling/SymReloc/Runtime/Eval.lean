import SymReloc.Outcome
import SymReloc.Wire.Plan

/-!
# The runtime's stack machine

`evalStream` evaluates a postfix stream in checked 64-bit arithmetic.  It guards
itself against streams that no decoder produced: an operand out of range, an
operator without operands, a stream that leaves no value or several.  On a
well-formed stream none of these errors is possible
(`WellFormed.ensures_evalStream`); division by zero and overflow remain.
-/

namespace SymReloc

open Outcome

/-- The errors of an evaluation. -/
inductive EvalError where
  | symbolIndex
  | pushDim
  | dimIndex
  | stackUnderflow
  | divisionByZero
  | floorDivOverflow
  | addOverflow
  | subOverflow
  | mulOverflow
  | modOverflow
  | notSingle
deriving DecidableEq, Repr

def EvalError.message : EvalError → String
  | .symbolIndex => "symbol index out of range"
  | .pushDim => "PUSH_DIM is not valid in a plan expression"
  | .dimIndex => "dimension index out of range"
  | .stackUnderflow => "expression stack underflow"
  | .divisionByZero => "division by zero"
  | .floorDivOverflow => "integer overflow in floordiv"
  | .addOverflow => "integer overflow in add"
  | .subOverflow => "integer overflow in sub"
  | .mulOverflow => "integer overflow in mul"
  | .modOverflow => "integer overflow in mod"
  | .notSingle => "expression did not evaluate to a single value"

/-- The errors of a malformed stream, as opposed to those of its values. -/
def EvalError.Structural (error : EvalError) : Prop :=
  error ∈ [.symbolIndex, .pushDim, .dimIndex, .stackUnderflow, .notSingle]

/-- The errors of an operator on its operands. -/
def EvalError.OfValues (error : EvalError) : Prop := ¬ error.Structural

instance (error : EvalError) : Decidable error.Structural :=
  inferInstanceAs (Decidable (error ∈ _))
instance (error : EvalError) : Decidable error.OfValues := inferInstanceAs (Decidable (¬ _))

/-- A checked result with the error of an overflow. -/
def checkedOr {ε : Type} (value : Int) (overflow : ε) : Outcome ε Int :=
  match checked64 value with
  | some result => .ok result
  | none => .error overflow

theorem checkedOr_eq_ok {ε : Type} {value result : Int} {overflow : ε} :
    checkedOr value overflow = .ok result ↔ FitsI64 value ∧ result = value := by
  rw [← checked64_eq_some, checkedOr]
  cases checked64 value <;> simp

theorem sat_checkedOr_bind {ε α : Type} {value : Int} {overflow : ε} {next : Int → Outcome ε α}
    {post : α → Prop} (hnext : FitsI64 value → (next value).Sat post) :
    (checkedOr value overflow >>= next).Sat post := by
  cases hrun : checkedOr value overflow with
  | ok result =>
      obtain ⟨hfits, rfl⟩ := checkedOr_eq_ok.mp hrun
      exact hnext hfits
  | error reason => trivial
  | fault kind =>
      unfold checkedOr at hrun
      split at hrun <;> cases hrun

theorem ensures_checkedOr {ε : Type} {value : Int} {overflow : ε} {good : ε → Prop}
    (h : good overflow) :
    (checkedOr value overflow).Ensures good fun result => FitsI64 value ∧ result = value := by
  cases hrun : checkedOr value overflow with
  | ok result => exact checkedOr_eq_ok.mp hrun
  | error reason =>
      unfold checkedOr at hrun
      split at hrun
      · cases hrun
      · cases hrun
        exact h
  | fault kind =>
      unfold checkedOr at hrun
      split at hrun <;> cases hrun

/-- `floorDiv`: the truncated quotient, one less when it was rounded up. -/
def floorDiv (a b : Int) : Outcome EvalError Int :=
  if b = 0 then .error .divisionByZero
  else if a = -2 ^ 63 ∧ b = -1 then .error .floorDivOverflow
  else
    let q := a.tdiv b
    .ok (if a.tmod b ≠ 0 ∧ (decide (a < 0) != decide (b < 0)) then q - 1 else q)

/-- One binary operator. -/
def evalOp (op : StackOp) (a b : Int) : Outcome EvalError Int :=
  match op with
  | .add => checkedOr (a + b) .addOverflow
  | .sub => checkedOr (a - b) .subOverflow
  | .mul => checkedOr (a * b) .mulOverflow
  | .floorDiv => floorDiv a b
  | .mod => do
      let q ← floorDiv a b
      let product ← checkedOr (q * b) .modOverflow
      checkedOr (a - product) .modOverflow

/-- One operation on a stack, the top of the stack first.  Without coordinates
    the stream is a plan expression. -/
def evalToken (symbols : List Int) (dims : Option (List Int)) (token : ExprToken)
    (stack : List Int) : Outcome EvalError (List Int) :=
  match token with
  | .pushSym index =>
      match symbols[index]? with
      | some value => .ok (value :: stack)
      | none => .error .symbolIndex
  | .pushConst value => .ok (value :: stack)
  | .pushDim index =>
      match dims with
      | none => .error .pushDim
      | some dims =>
          match dims[index]? with
          | some value => .ok (value :: stack)
          | none => .error .dimIndex
  | .apply op =>
      match stack with
      | b :: a :: stack => do
          let result ← evalOp op a b
          pure (result :: stack)
      | _ => .error .stackUnderflow

def evalTokens (symbols : List Int) (dims : Option (List Int)) :
    ExprStream → List Int → Outcome EvalError (List Int)
  | [], stack => .ok stack
  | token :: rest, stack => do
      let stack ← evalToken symbols dims token stack
      evalTokens symbols dims rest stack

/-- `evalStream`. -/
def evalStream (stream : ExprStream) (symbols : List Int) (dims : Option (List Int)) :
    Outcome EvalError Int := do
  let stack ← evalTokens symbols dims stream []
  match stack with
  | [value] => pure value
  | _ => .error .notSingle

/-- `evalExpr`: the plan context. -/
def evalExpr (stream : ExprStream) (symbols : List Int) : Outcome EvalError Int :=
  evalStream stream symbols none

/-- `evalChannel`: the channel context, at a coordinate of the result. -/
def evalChannel (stream : ExprStream) (symbols dims : List Int) : Outcome EvalError Int :=
  evalStream stream symbols (some dims)

/-! ### Streams within their scope -/

/-- The values an evaluation gets cover the scope of its stream. -/
structure ExprScope.Covers (scope : ExprScope) (symbols : List Int) (dims : Option (List Int)) :
    Prop where
  context : scope.context ≠ .inverse
  symbols : scope.symbolCount ≤ symbols.length
  dims : scope.context = .channel → ∃ values, dims = some values ∧ scope.dimCount ≤ values.length

theorem ensures_floorDiv (a b : Int) :
    (floorDiv a b).Ensures EvalError.OfValues fun _ => True := by
  unfold floorDiv
  refine ensures_ite (fun _ => ?_) fun _ => ensures_ite (fun _ => ?_) fun _ => trivial
  · rw [ensures_error]
    decide
  · rw [ensures_error]
    decide

/-- An operator only fails on its values. -/
theorem ensures_evalOp (op : StackOp) (a b : Int) :
    (evalOp op a b).Ensures EvalError.OfValues fun _ => True := by
  have hchecked : ∀ (value : Int) (error : EvalError), error.OfValues →
      (checkedOr value error).Ensures EvalError.OfValues fun _ => True :=
    fun value error h => (ensures_checkedOr h).mono fun _ _ => trivial
  cases op with
  | add => exact hchecked _ _ (by decide)
  | sub => exact hchecked _ _ (by decide)
  | mul => exact hchecked _ _ (by decide)
  | floorDiv => exact ensures_floorDiv a b
  | mod =>
      exact (ensures_floorDiv a b).bind fun q _ => (hchecked _ _ (by decide)).bind fun _ _ =>
        hchecked _ _ (by decide)

/-- A token of the scope turns a stack of one depth into one of the depth the
    decoder counted. -/
theorem ensures_evalToken {scope : ExprScope} {symbols : List Int} {dims : Option (List Int)}
    (hcovers : scope.Covers symbols dims) {token : ExprToken} {stack : List Int} {depth : Nat}
    (hwf : token.WellFormed scope) (hdepth : token.depthAfter stack.length = some depth) :
    (evalToken symbols dims token stack).Ensures EvalError.OfValues
      fun result => result.length = depth := by
  cases token with
  | pushSym index =>
      cases hdepth
      have hlt : index < symbols.length := hwf.2.1.trans_le hcovers.symbols
      simp only [evalToken, List.getElem?_eq_getElem hlt]
      exact rfl
  | pushConst value =>
      cases hdepth
      exact rfl
  | pushDim index =>
      cases hdepth
      have hchannel : scope.context = .channel := by
        cases hcontext : scope.context with
        | plan => exact absurd hcontext hwf.1
        | inverse => exact absurd hcontext hcovers.context
        | channel => rfl
      obtain ⟨values, rfl, hle⟩ := hcovers.dims hchannel
      have hlt : index < values.length := hwf.2.1.trans_le hle
      simp only [evalToken, List.getElem?_eq_getElem hlt]
      exact rfl
  | apply op =>
      simp only [ExprToken.depthAfter] at hdepth
      rcases stack with _ | ⟨b, _ | ⟨a, below⟩⟩
      · simp at hdepth
      · simp at hdepth
      · rw [if_neg (by simp)] at hdepth
        cases hdepth
        exact (ensures_evalOp op a b).bind fun result _ => rfl

theorem ensures_evalTokens {scope : ExprScope} {symbols : List Int} {dims : Option (List Int)}
    (hcovers : scope.Covers symbols dims) {stream : ExprStream} {stack : List Int} {depth : Nat}
    (hwf : ∀ token ∈ stream, token.WellFormed scope)
    (hdepth : ExprStream.depthFrom stream stack.length = some depth) :
    (evalTokens symbols dims stream stack).Ensures EvalError.OfValues
      fun result => result.length = depth := by
  induction stream generalizing stack with
  | nil =>
      cases hdepth
      exact rfl
  | cons token rest ih =>
      rw [ExprStream.depthFrom_cons] at hdepth
      obtain ⟨middle, hmiddle, hrest⟩ := Option.bind_eq_some_iff.mp hdepth
      refine (ensures_evalToken hcovers (hwf token (by simp)) hmiddle).bind fun next hnext => ?_
      subst hnext
      exact ih (fun t ht => hwf t (by simp [ht])) hrest

/-- A well-formed stream only fails on its values. -/
theorem ExprStream.WellFormed.ensures_evalStream {scope : ExprScope} {symbols : List Int}
    {dims : Option (List Int)} {stream : ExprStream} (h : stream.WellFormed scope)
    (hcovers : scope.Covers symbols dims) :
    (evalStream stream symbols dims).Ensures EvalError.OfValues fun _ => True := by
  have hrun := ensures_evalTokens hcovers h.tokens
    (show ExprStream.depthFrom stream [].length = some 1 from h.depth)
  refine hrun.bind fun stack hstack => ?_
  obtain ⟨value, rfl⟩ := List.length_eq_one_iff.mp hstack
  trivial

theorem ExprStream.WellFormed.ensures_evalExpr {symbolCount : Nat} {symbols : List Int}
    {stream : ExprStream} (h : stream.WellFormed (.plan symbolCount))
    (hsymbols : symbols.length = symbolCount) :
    (evalExpr stream symbols).Ensures EvalError.OfValues fun _ => True := by
  refine h.ensures_evalStream ⟨?_, hsymbols.ge, ?_⟩
  · intro hcontext
    cases hcontext
  · intro hcontext
    cases hcontext

theorem ExprStream.WellFormed.ensures_evalChannel {symbolCount rank : Nat}
    {symbols dims : List Int} {stream : ExprStream}
    (h : stream.WellFormed ⟨.channel, symbolCount, rank⟩) (hsymbols : symbols.length = symbolCount)
    (hdims : dims.length = rank) :
    (evalChannel stream symbols dims).Ensures EvalError.OfValues fun _ => True := by
  refine h.ensures_evalStream ⟨?_, hsymbols.ge, fun _ => ⟨dims, rfl, hdims.ge⟩⟩
  intro hcontext
  cases hcontext

end SymReloc
