import SymReloc.Broadcast
import SymReloc.Sym.Expr

/-!
# Unifying symbolic shapes

The solver aligns two shapes at their last dimension and joins each pair of dimensions by logical
equality, with a constant one as the unit.  Logical equality is an equivalence, so that this is an
instance of the flat join, and it is sound for the broadcast of the shapes the symbols stand for.
-/

namespace SymReloc

open Broadcast

/-! ### Logical equality is an equivalence -/

namespace SymExpr

theorem areLogicallyEqual_binary {op op' : SymbolicExprOp} {l r l' r' : SymExpr} :
    areLogicallyEqual (.binary op l r) (.binary op' l' r') = true ↔ op = op' ∧
      ((areLogicallyEqual l l' = true ∧ areLogicallyEqual r r' = true) ∨
        (op.commutative = true ∧ areLogicallyEqual l r' = true ∧
          areLogicallyEqual r l' = true)) := by
  show (op == op' && ((areLogicallyEqual l l' && areLogicallyEqual r r') ||
    (op.commutative && (areLogicallyEqual l r' && areLogicallyEqual r l')))) = true ↔ _
  simp only [Bool.and_eq_true, Bool.or_eq_true, beq_iff_eq]

theorem areLogicallyEqual_constant {value : Int} {expr : SymExpr}
    (h : areLogicallyEqual (.constant value) expr = true) : expr = .constant value := by
  cases expr with
  | constant other =>
      have heq : value = other := beq_iff_eq.mp h
      rw [heq]
  | symbol name => exact Bool.noConfusion h
  | binary op l r => exact Bool.noConfusion h

theorem areLogicallyEqual_symbol {name : Name} {expr : SymExpr}
    (h : areLogicallyEqual (.symbol name) expr = true) : expr = .symbol name := by
  cases expr with
  | constant value => exact Bool.noConfusion h
  | symbol other =>
      have heq : name = other := beq_iff_eq.mp h
      rw [heq]
  | binary op l r => exact Bool.noConfusion h

/-- What a node is equal to is a node of the same operator. -/
theorem exists_binary {op : SymbolicExprOp} {l r expr : SymExpr}
    (h : areLogicallyEqual (.binary op l r) expr = true) :
    ∃ l' r', expr = .binary op l' r' ∧
      ((areLogicallyEqual l l' = true ∧ areLogicallyEqual r r' = true) ∨
        (op.commutative = true ∧ areLogicallyEqual l r' = true ∧
          areLogicallyEqual r l' = true)) := by
  cases expr with
  | constant value => exact Bool.noConfusion h
  | symbol name => exact Bool.noConfusion h
  | binary op' l' r' =>
      obtain ⟨rfl, hsides⟩ := areLogicallyEqual_binary.mp h
      exact ⟨l', r', rfl, hsides⟩

theorem areLogicallyEqual_symm {a b : SymExpr} (h : areLogicallyEqual a b = true) :
    areLogicallyEqual b a = true := by
  induction a generalizing b with
  | symbol name =>
      rw [areLogicallyEqual_symbol h]
      exact areLogicallyEqual_self _
  | constant value =>
      rw [areLogicallyEqual_constant h]
      exact areLogicallyEqual_self _
  | binary op l r ihl ihr =>
      obtain ⟨l', r', rfl, ⟨hl, hr⟩ | ⟨hop, hl, hr⟩⟩ := exists_binary h
      · exact areLogicallyEqual_binary.mpr ⟨rfl, .inl ⟨ihl hl, ihr hr⟩⟩
      · exact areLogicallyEqual_binary.mpr ⟨rfl, .inr ⟨hop, ihr hr, ihl hl⟩⟩

theorem areLogicallyEqual_trans {a b c : SymExpr} (hab : areLogicallyEqual a b = true)
    (hbc : areLogicallyEqual b c = true) : areLogicallyEqual a c = true := by
  induction a generalizing b c with
  | symbol name =>
      rw [areLogicallyEqual_symbol hab] at hbc
      exact hbc
  | constant value =>
      rw [areLogicallyEqual_constant hab] at hbc
      exact hbc
  | binary op l r ihl ihr =>
      obtain ⟨l', r', rfl, hsides⟩ := exists_binary hab
      obtain ⟨l'', r'', rfl, hsides'⟩ := exists_binary hbc
      refine areLogicallyEqual_binary.mpr ⟨rfl, ?_⟩
      -- two swaps undo each other
      rcases hsides with ⟨hl, hr⟩ | ⟨hop, hl, hr⟩
      · rcases hsides' with ⟨hl', hr'⟩ | ⟨hop, hl', hr'⟩
        · exact .inl ⟨ihl hl hl', ihr hr hr'⟩
        · exact .inr ⟨hop, ihl hl hl', ihr hr hr'⟩
      · rcases hsides' with ⟨hl', hr'⟩ | ⟨-, hl', hr'⟩
        · exact .inr ⟨hop, ihl hl hr', ihr hr hl'⟩
        · exact .inl ⟨ihl hl hr', ihr hr hl'⟩

/-- `UnificationSolver::isConstantOne`. -/
def isConstantOne (expr : SymExpr) : Bool := expr.isConstantValue 1

theorem flat_areLogicallyEqual : Flat areLogicallyEqual isConstantOne (.constant 1) where
  refl := areLogicallyEqual_self
  symm := areLogicallyEqual_symm
  trans := areLogicallyEqual_trans
  isOne_iff := isConstantValue_iff
  unit := areLogicallyEqual_constant

end SymExpr

/-! ### The solver -/

namespace UnificationSolver

/-- The diagnostic of two dimensions that do not unify. -/
structure Incompatible where
  dimIndex : Nat
  d1 : SymExpr
  d2 : SymExpr
deriving DecidableEq, Repr

/-- The text of the diagnostic; `formatAttr` prints an attribute. -/
def Incompatible.message (formatAttr : SymExpr → String) (error : Incompatible) : String :=
  "incompatible dimensions at index " ++ toString error.dimIndex ++ ": " ++
    formatAttr error.d1 ++ " vs " ++ formatAttr error.d2

/-- One round of the loop of `unify`. -/
def unifyDim (dimIndex : Nat) (d1 d2 : SymExpr) : Except Incompatible SymExpr :=
  if d1.areLogicallyEqual d2 then .ok d1
  else if d1.isConstantOne then .ok d2
  else if d2.isConstantOne then .ok d1
  else .error ⟨dimIndex, d1, d2⟩

/-- `UnificationSolver::unify`. -/
def unify (shape1 shape2 : List SymExpr) : Except Incompatible (List SymExpr) := do
  let maxRank := max shape1.length shape2.length
  let result ← (List.range maxRank).mapM fun i =>
    unifyDim (maxRank - 1 - i) (fromRight (.constant 1) shape1 i)
      (fromRight (.constant 1) shape2 i)
  pure result.reverse

/-- The join of two dimensions. -/
abbrev joinDims : SymExpr → SymExpr → Option SymExpr :=
  flatJoin SymExpr.areLogicallyEqual SymExpr.isConstantOne

theorem unifyDim_toOption (dimIndex : Nat) (d1 d2 : SymExpr) :
    (unifyDim dimIndex d1 d2).toOption = joinDims d1 d2 := by
  unfold unifyDim joinDims flatJoin
  split
  · rfl
  · split
    · rfl
    · split <;> rfl

theorem mapM_toOption {ε α β : Type} {f : α → Except ε β} {g : α → Option β} (list : List α)
    (h : ∀ a ∈ list, (f a).toOption = g a) : (list.mapM f).toOption = list.mapM g := by
  induction list with
  | nil => rfl
  | cons a rest ih =>
      have hrest := ih fun b hb => h b (List.mem_cons_of_mem _ hb)
      rw [List.mapM_cons, List.mapM_cons, ← h a List.mem_cons_self, ← hrest]
      cases f a with
      | error e => rfl
      | ok b => cases rest.mapM f <;> rfl

theorem unify_toOption (shape1 shape2 : List SymExpr) :
    (unify shape1 shape2).toOption = aligned (.constant 1) joinDims shape1 shape2 := by
  have hdims := mapM_toOption (List.range (max shape1.length shape2.length))
    fun i _ => unifyDim_toOption (max shape1.length shape2.length - 1 - i)
      (fromRight (.constant 1) shape1 i) (fromRight (.constant 1) shape2 i)
  rw [aligned, ← hdims, unify]
  cases (List.range (max shape1.length shape2.length)).mapM fun i =>
    unifyDim (max shape1.length shape2.length - 1 - i) (fromRight (.constant 1) shape1 i)
      (fromRight (.constant 1) shape2 i) <;> rfl

theorem unify_eq_ok {shape1 shape2 result : List SymExpr} :
    unify shape1 shape2 = .ok result ↔
      aligned (.constant 1) joinDims shape1 shape2 = some result := by
  rw [← unify_toOption]
  cases unify shape1 shape2 <;> simp [Except.toOption]

theorem joinDims_one : joinDims (.constant 1) (.constant 1) = some (.constant 1) :=
  SymExpr.flat_areLogicallyEqual.join_one_left _

/-- Shapes that are logically equal, dimension by dimension. -/
abbrev SameShape : List SymExpr → List SymExpr → Prop :=
  List.Forall₂ fun d1 d2 => d1.areLogicallyEqual d2 = true

theorem unify_comm (shape1 shape2 : List SymExpr) :
    Option.Rel SameShape (unify shape1 shape2).toOption (unify shape2 shape1).toOption := by
  rw [unify_toOption, unify_toOption]
  exact aligned_comm joinDims_one SymExpr.flat_areLogicallyEqual.comm shape1 shape2

theorem bind_toOption {ε α β : Type} (run : Except ε α) (next : α → Except ε β) :
    (run.bind next).toOption = run.toOption.bind fun value => (next value).toOption := by
  cases run <;> rfl

theorem unify_assoc (shape1 shape2 shape3 : List SymExpr) :
    Option.Rel SameShape
      ((unify shape1 shape2).bind fun shape => unify shape shape3).toOption
      ((unify shape2 shape3).bind fun shape => unify shape1 shape).toOption := by
  simp only [bind_toOption, unify_toOption]
  exact aligned_assoc joinDims_one SymExpr.flat_areLogicallyEqual.assoc shape1 shape2 shape3

/-! ### Soundness -/

/-- The broadcast of two shapes, where they broadcast. -/
def broadcast : List Int → List Int → Option (List Int) :=
  aligned 1 (flatJoin (fun a b => decide (a = b)) fun a => decide (a = 1))

/-- The shape that the dimensions stand for. -/
def evalShape (σ : Name → Int) (shape : List SymExpr) : Option (List Int) :=
  shape.mapM (SymExpr.eval σ)

theorem unify_sound {σ : Name → Int} {shape1 shape2 result : List SymExpr}
    {actual1 actual2 actual : List Int} (h : unify shape1 shape2 = .ok result)
    (h1 : evalShape σ shape1 = some actual1) (h2 : evalShape σ shape2 = some actual2)
    (hactual : broadcast actual1 actual2 = some actual) : evalShape σ result = some actual := by
  have hunit : SymExpr.eval σ (.constant 1) = some 1 := rfl
  refine aligned_sound joinDims_one ((flat_eq (1 : Int)).join_one_left 1) hunit ?_
    (unify_eq_ok.mp h) h1 h2 hactual
  intro a b c x y z
  exact flatJoin_sound SymExpr.flat_areLogicallyEqual hunit
    fun a b hab => SymExpr.areLogicallyEqual_eval σ hab

/-- Nothing is added by a shape without dimensions. -/
theorem broadcast_nil_left {actual1 actual : List Int}
    (h : broadcast [] actual1 = some actual) : actual = actual1 := by
  obtain ⟨hlength, hplaces⟩ := (aligned_eq_some ((flat_eq (1 : Int)).join_one_left 1)).mp h
  refine eq_of_fromRight (1 : Int) (by simpa using hlength) fun place => ?_
  have hplace := hplaces place
  rw [fromRight_of_le (Nat.zero_le _), (flat_eq (1 : Int)).join_one_left,
    Option.some.injEq] at hplace
  exact hplace.symm

theorem broadcast_nil_right {actual1 actual : List Int}
    (h : broadcast actual1 [] = some actual) : actual = actual1 := by
  obtain ⟨hlength, hplaces⟩ := (aligned_eq_some ((flat_eq (1 : Int)).join_one_left 1)).mp h
  refine eq_of_fromRight (1 : Int) (by simpa using hlength) fun place => ?_
  have hplace := hplaces place
  rw [@fromRight_of_le _ 1 [] place (Nat.zero_le _), (flat_eq (1 : Int)).join_one_right,
    Option.some.injEq] at hplace
  exact hplace.symm

end UnificationSolver

end SymReloc
