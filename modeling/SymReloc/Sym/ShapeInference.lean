import Mathlib.Logic.Function.Basic
import SymReloc.Sym.Unify

/-!
# Symbolic shape inference

The pass visits the operations of a function in order and sets the type of each result from the
types of its operands: the unified shape, with the element type of the first tensor operand.  The
shapes it infers are the broadcast of what they stand for, and a second run changes nothing; the
element type is kept exactly where the first operand has that of the result, which a comparison
does not.
-/

namespace SymReloc.ShapeInference

open UnificationSolver

/-! ### Types and operations -/

/-- What the pass distinguishes of a type; `E` are the element types. -/
inductive ValueType (E : Type) where
  | symbolicTensor (shape : List SymExpr) (elementType : E)
  /-- A ranked tensor; a dynamic dimension has no extent. -/
  | rankedTensor (shape : List (Option Int)) (elementType : E)
  | unrankedTensor (elementType : E)
  | other
deriving DecidableEq

/-- The `arith` operations with the interface attached. -/
inductive ArithOp where
  | addi | subi | muli | divsi | divui | remsi | remui
  | addf | subf | mulf | divf | remf
  | cmpi | cmpf
  | andi | ori | xori
  | maxsi | maxui | minsi | minui | maximumf | minimumf
deriving DecidableEq, Repr

/-- An operation with one result; values are numbered.  One without the interface has no name
    here. -/
structure Operation where
  name : Option ArithOp
  operands : List Nat
  result : Nat
deriving DecidableEq, Repr

variable {E : Type}

namespace ValueType

/-- `getElementType`, of a tensor. -/
def elementType : ValueType E → Option E
  | symbolicTensor _ e => some e
  | rankedTensor _ e => some e
  | unrankedTensor e => some e
  | other => none

/-- `getSymbolicShape`: empty where the type says nothing of the shape. -/
def symbolicShape : ValueType E → List SymExpr
  | symbolicTensor shape _ => shape
  | rankedTensor dims _ =>
      match dims.mapM id with
      | some extents => extents.map .constant
      | none => []
  | _ => []

/-- The shape a tensor of the type has under an assignment of the symbols. -/
def ActualShape (σ : Name → Int) (actual : List Int) : ValueType E → Prop
  | symbolicTensor shape _ => evalShape σ shape = some actual
  | rankedTensor dims _ => dims = actual.map some
  | _ => False

end ValueType

/-- The types of the values. -/
abbrev Types (E : Type) := Nat → ValueType E

/-- A function's operations in order, each value set once and before it is used. -/
structure FuncOp (E : Type) where
  types : Types E
  body : List Operation
  own : ∀ op ∈ body, op.result ∉ op.operands
  ssa : body.Pairwise fun op later => later.result ≠ op.result ∧ later.result ∉ op.operands

/-! ### The shared model of the operations -/

/-- `inferSymbolicShapes`. -/
def inferSymbolicShapes : List (List SymExpr) → Option (List (List SymExpr))
  | [lhsShape, rhsShape] =>
      if lhsShape = [] ∧ rhsShape = [] then none
      else if lhsShape = [] then some [rhsShape]
      else if rhsShape = [] then some [lhsShape]
      else
        match unify lhsShape rhsShape with
        | .ok result => some [result]
        | .error _ => none
  | _ => none

/-- `getResultElementType`: the element type of the first tensor operand. -/
def getResultElementType (types : Types E) (op : Operation) : Option E :=
  op.operands.findSome? fun operand => (types operand).elementType

/-! ### The pass -/

def operandShapes (types : Types E) (op : Operation) : List (List SymExpr) :=
  op.operands.map fun operand => (types operand).symbolicShape

/-- The type that a visit sets. -/
def inferredType (types : Types E) (op : Operation) : Option (ValueType E) :=
  if op.name = none then none
  else if (operandShapes types op).all (fun shape => shape.isEmpty) then none
  else
    match inferSymbolicShapes (operandShapes types op) with
    | some (shape :: _) =>
        if shape = [] then none
        else (getResultElementType types op).map (ValueType.symbolicTensor shape)
    | _ => none

/-- The visit of one operation. -/
def visit (types : Types E) (op : Operation) : Types E :=
  match inferredType types op with
  | some type => Function.update types op.result type
  | none => types

/-- `funcOp.walk`. -/
def walk (types : Types E) (body : List Operation) : Types E := body.foldl visit types

/-- `runOnOperation`. -/
def runOnOperation (func : FuncOp E) : FuncOp E where
  types := walk func.types func.body
  body := func.body
  own := func.own
  ssa := func.ssa

/-! ### One visit -/

theorem visit_of_ne {types : Types E} {op : Operation} {value : Nat} (h : value ≠ op.result) :
    visit types op value = types value := by
  cases htype : inferredType types op with
  | some type =>
      rw [visit, htype]
      exact Function.update_of_ne h _ _
  | none => rw [visit, htype]

theorem visit_result {types : Types E} {op : Operation} {type : ValueType E}
    (h : inferredType types op = some type) : visit types op op.result = type := by
  rw [visit, h]
  exact Function.update_self _ _ _

theorem visit_of_none {types : Types E} {op : Operation} (h : inferredType types op = none) :
    visit types op = types := by
  rw [visit, h]

/-- The inferred type depends on the types of the operands. -/
theorem inferredType_congr {types types' : Types E} {op : Operation}
    (h : ∀ operand ∈ op.operands, types operand = types' operand) :
    inferredType types op = inferredType types' op := by
  have hshapes : operandShapes types op = operandShapes types' op :=
    List.map_congr_left fun operand hoperand => by rw [h operand hoperand]
  have hfirst : ∀ operands : List Nat,
      (∀ operand ∈ operands, types operand = types' operand) →
      (operands.findSome? fun operand => (types operand).elementType) =
        operands.findSome? fun operand => (types' operand).elementType := by
    intro operands hsame
    induction operands with
    | nil => rfl
    | cons operand rest ih =>
        rw [List.findSome?_cons, List.findSome?_cons, hsame operand List.mem_cons_self,
          ih fun other hother => hsame other (List.mem_cons_of_mem _ hother)]
  have helement : getResultElementType types op = getResultElementType types' op :=
    hfirst op.operands h
  unfold inferredType
  rw [hshapes, helement]

theorem unify_ne_nil {shape1 shape2 result : List SymExpr} (h : unify shape1 shape2 = .ok result)
    (hne : shape1 ≠ []) : result ≠ [] := by
  obtain ⟨hlength, -⟩ := (Broadcast.aligned_eq_some joinDims_one).mp (unify_eq_ok.mp h)
  have hpos := List.length_pos_iff.mpr hne
  refine List.length_pos_iff.mp ?_
  omega

/-- Where the model infers shapes, it infers one that is not empty, from two operands. -/
theorem inferSymbolicShapes_eq_some {shapes : List (List SymExpr)}
    {inferred : List (List SymExpr)} (h : inferSymbolicShapes shapes = some inferred) :
    ∃ lhsShape rhsShape shape, shapes = [lhsShape, rhsShape] ∧ inferred = [shape] ∧
      shape ≠ [] ∧ (lhsShape ≠ [] ∨ rhsShape ≠ []) ∧
      (lhsShape = [] ∧ shape = rhsShape ∨ rhsShape = [] ∧ shape = lhsShape ∨
        unify lhsShape rhsShape = .ok shape) := by
  match shapes, h with
  | [lhsShape, rhsShape], h =>
      refine ⟨lhsShape, rhsShape, ?_⟩
      simp only [inferSymbolicShapes] at h
      by_cases hl : lhsShape = []
      · by_cases hr : rhsShape = []
        · simp [hl, hr] at h
        · simp only [hl, hr, and_false, if_false, if_true, Option.some.injEq] at h
          exact ⟨rhsShape, rfl, h.symm, hr, .inr hr, .inl ⟨hl, rfl⟩⟩
      · by_cases hr : rhsShape = []
        · simp only [hl, hr, false_and, if_false, if_true, Option.some.injEq] at h
          exact ⟨lhsShape, rfl, h.symm, hl, .inl hl, .inr (.inl ⟨hr, rfl⟩)⟩
        · simp only [hl, hr, false_and, if_false] at h
          cases hunify : unify lhsShape rhsShape with
          | error e =>
              rw [hunify] at h
              cases h
          | ok result =>
              rw [hunify, Option.some.injEq] at h
              exact ⟨result, rfl, h.symm, unify_ne_nil hunify hl, .inl hl, .inr (.inr rfl)⟩

theorem exists_elementType {type : ValueType E} (h : type.symbolicShape ≠ []) :
    ∃ e, type.elementType = some e := by
  cases type with
  | symbolicTensor shape e => exact ⟨e, rfl⟩
  | rankedTensor dims e => exact ⟨e, rfl⟩
  | unrankedTensor e => exact ⟨e, rfl⟩
  | other => exact absurd rfl h

/-- A visit sets a type exactly where an operation of the interface has its shapes inferred. -/
theorem inferredType_of_inferred {types : Types E} {op : Operation}
    {inferred : List (List SymExpr)} (hname : op.name ≠ none)
    (h : inferSymbolicShapes (operandShapes types op) = some inferred) :
    ∃ shape e, inferred = [shape] ∧ getResultElementType types op = some e ∧
      inferredType types op = some (.symbolicTensor shape e) := by
  obtain ⟨lhsShape, rhsShape, shape, hshapes, rfl, hne, hany, -⟩ :=
    inferSymbolicShapes_eq_some h
  have hsome : ∃ given ∈ operandShapes types op, given ≠ [] := by
    rw [hshapes]
    rcases hany with hl | hr
    · exact ⟨lhsShape, by simp, hl⟩
    · exact ⟨rhsShape, by simp, hr⟩
  obtain ⟨given, hgiven, hgivenNe⟩ := hsome
  have hall : (operandShapes types op).all (fun shape => shape.isEmpty) = false := by
    rw [List.all_eq_false]
    exact ⟨given, hgiven, by simpa using hgivenNe⟩
  obtain ⟨operand, hoperand, rfl⟩ := List.mem_map.mp hgiven
  obtain ⟨found, hfound⟩ := exists_elementType hgivenNe
  have helement : (getResultElementType types op).isSome := by
    unfold getResultElementType
    rw [List.findSome?_isSome_iff]
    exact ⟨operand, hoperand, by simp [hfound]⟩
  obtain ⟨e, he⟩ := Option.isSome_iff_exists.mp helement
  refine ⟨shape, e, rfl, he, ?_⟩
  unfold inferredType
  rw [if_neg hname, if_neg (by simp [hall]), h]
  simp [hne, he]

theorem inferred_of_inferredType {types : Types E} {op : Operation} {type : ValueType E}
    (h : inferredType types op = some type) :
    op.name ≠ none ∧ (inferSymbolicShapes (operandShapes types op)).isSome := by
  unfold inferredType at h
  split at h
  · cases h
  · rename_i hname
    refine ⟨hname, ?_⟩
    split at h
    · cases h
    · split at h
      · rename_i hinferred
        rw [hinferred]
        rfl
      · cases h

/-! ### A whole walk -/

theorem walk_cons (types : Types E) (op : Operation) (rest : List Operation) :
    walk types (op :: rest) = walk (visit types op) rest := rfl

/-- Values that no operation sets keep their types. -/
theorem walk_of_notMem {types : Types E} {body : List Operation} {value : Nat}
    (h : ∀ op ∈ body, op.result ≠ value) : walk types body value = types value := by
  induction body generalizing types with
  | nil => rfl
  | cons op rest ih =>
      rw [walk_cons, ih fun later hlater => h later (List.mem_cons_of_mem _ hlater)]
      exact visit_of_ne (h op List.mem_cons_self).symm

/-- Every operation has the type that the final types give it. -/
def Settled (types : Types E) (op : Operation) : Prop :=
  ∀ type, inferredType types op = some type → types op.result = type

/-- After a walk every visited operation is settled. -/
theorem walk_settled {types : Types E} {body : List Operation}
    (hown : ∀ op ∈ body, op.result ∉ op.operands)
    (hssa : body.Pairwise fun op later => later.result ≠ op.result ∧
      later.result ∉ op.operands) :
    ∀ op ∈ body, Settled (walk types body) op := by
  induction body generalizing types with
  | nil => nofun
  | cons op rest ih =>
      obtain ⟨hlater, hrest⟩ := List.pairwise_cons.mp hssa
      intro later hmem
      rcases List.mem_cons.mp hmem with rfl | hmem
      · intro type htype
        -- neither the operands nor the result are set later
        have hoperands : ∀ operand ∈ later.operands,
            walk types (later :: rest) operand = types operand := by
          intro operand hoperand
          refine walk_of_notMem fun other hother => ?_
          rcases List.mem_cons.mp hother with rfl | hother
          · exact fun heq => hown other List.mem_cons_self (heq ▸ hoperand)
          · exact fun heq => (hlater other hother).2 (heq ▸ hoperand)
        rw [inferredType_congr hoperands] at htype
        rw [walk_cons, walk_of_notMem fun other hother => (hlater other hother).1]
        exact visit_result htype
      · exact ih (fun other hother => hown other (List.mem_cons_of_mem _ hother)) hrest later hmem

theorem walk_of_settled {types : Types E} {body : List Operation}
    (h : ∀ op ∈ body, Settled types op) : walk types body = types := by
  induction body with
  | nil => rfl
  | cons op rest ih =>
      have hvisit : visit types op = types := by
        cases htype : inferredType types op with
        | none => exact visit_of_none htype
        | some type =>
            rw [visit, htype, ← h op List.mem_cons_self type htype]
            exact Function.update_eq_self _ _
      rw [walk_cons, hvisit]
      exact ih fun later hlater => h later (List.mem_cons_of_mem _ hlater)

/-- A second run changes nothing. -/
theorem runOnOperation_idempotent (func : FuncOp E) :
    runOnOperation (runOnOperation func) = runOnOperation func := by
  have htypes : walk (walk func.types func.body) func.body = walk func.types func.body :=
    walk_of_settled (walk_settled func.own func.ssa)
  unfold runOnOperation
  simp only [htypes]

/-! ### The inferred shapes -/

theorem evalShape_symbolicShape {σ : Name → Int} {type : ValueType E} {actual : List Int}
    (h : type.ActualShape σ actual) : evalShape σ type.symbolicShape = some actual := by
  cases type with
  | symbolicTensor shape e => exact h
  | rankedTensor dims e =>
      have hdims : dims = actual.map some := h
      have hmap : dims.mapM id = some actual := by
        rw [Broadcast.mapM_eq_some, List.map_id]
        exact hdims
      rw [ValueType.symbolicShape, hmap]
      unfold evalShape
      rw [Broadcast.mapM_eq_some, List.map_map]
      rfl
  | unrankedTensor e => exact h.elim
  | other => exact h.elim

theorem inferSymbolicShapes_sound {σ : Name → Int} {lhsShape rhsShape : List SymExpr}
    {inferred : List (List SymExpr)} {lhs rhs actual : List Int}
    (h : inferSymbolicShapes [lhsShape, rhsShape] = some inferred)
    (hl : evalShape σ lhsShape = some lhs) (hr : evalShape σ rhsShape = some rhs)
    (hactual : broadcast lhs rhs = some actual) :
    ∃ shape, inferred = [shape] ∧ evalShape σ shape = some actual := by
  obtain ⟨l, r, shape, heq, rfl, -, -, hcases⟩ := inferSymbolicShapes_eq_some h
  cases heq
  refine ⟨shape, rfl, ?_⟩
  rcases hcases with ⟨rfl, rfl⟩ | ⟨rfl, rfl⟩ | hunify
  · have hnil : lhs = [] := (Option.some.inj hl).symm
    subst hnil
    rw [broadcast_nil_left hactual]
    exact hr
  · have hnil : rhs = [] := (Option.some.inj hr).symm
    subst hnil
    rw [broadcast_nil_right hactual]
    exact hl
  · exact unify_sound hunify hl hr hactual

/-- A result whose shape is inferred has the broadcast of its operands' shapes. -/
theorem runOnOperation_sound (func : FuncOp E) {op : Operation} (hop : op ∈ func.body)
    (hname : op.name ≠ none) {lhs rhs : Nat} (hoperands : op.operands = [lhs, rhs])
    (hinferred :
      (inferSymbolicShapes (operandShapes (runOnOperation func).types op)).isSome)
    {σ : Name → Int} {actualLhs actualRhs actual : List Int}
    (hl : ((runOnOperation func).types lhs).ActualShape σ actualLhs)
    (hr : ((runOnOperation func).types rhs).ActualShape σ actualRhs)
    (hactual : broadcast actualLhs actualRhs = some actual) :
    ((runOnOperation func).types op.result).ActualShape σ actual := by
  obtain ⟨inferred, h⟩ := Option.isSome_iff_exists.mp hinferred
  obtain ⟨shape, e, rfl, -, htype⟩ := inferredType_of_inferred hname h
  have hresult : (runOnOperation func).types op.result = .symbolicTensor shape e :=
    walk_settled func.own func.ssa op hop _ htype
  have hshapes : operandShapes (runOnOperation func).types op =
      [((runOnOperation func).types lhs).symbolicShape,
        ((runOnOperation func).types rhs).symbolicShape] := by
    rw [operandShapes, hoperands]
    rfl
  rw [hshapes] at h
  obtain ⟨found, heq, hfound⟩ := inferSymbolicShapes_sound h (evalShape_symbolicShape hl)
    (evalShape_symbolicShape hr) hactual
  cases heq
  rw [hresult]
  exact hfound

/-! ### Element types -/

/-- The first tensor operand has the element type of the result, where a shape is inferred. -/
def KeepsElementType (types : Types E) (op : Operation) : Prop :=
  op.name ≠ none → (inferSymbolicShapes (operandShapes types op)).isSome →
    getResultElementType types op = (types op.result).elementType

/-- A condition on each operation and the types before its visit. -/
def EveryVisit (P : Types E → Operation → Prop) : Types E → List Operation → Prop
  | _, [] => True
  | types, op :: rest => P types op ∧ EveryVisit P (visit types op) rest

theorem visit_elementType_iff {types : Types E} {op : Operation} :
    (visit types op op.result).elementType = (types op.result).elementType ↔
      KeepsElementType types op := by
  constructor
  · intro h hname hinferred
    obtain ⟨inferred, hshapes⟩ := Option.isSome_iff_exists.mp hinferred
    obtain ⟨shape, e, -, helement, htype⟩ := inferredType_of_inferred hname hshapes
    rw [visit_result htype] at h
    exact helement.trans h
  · intro hkeeps
    cases htype : inferredType types op with
    | none => rw [visit_of_none htype]
    | some type =>
        obtain ⟨hname, hinferred⟩ := inferred_of_inferredType htype
        obtain ⟨inferred, hshapes⟩ := Option.isSome_iff_exists.mp hinferred
        obtain ⟨shape, e, -, helement, htype'⟩ := inferredType_of_inferred hname hshapes
        rw [visit_result htype', ← hkeeps hname hinferred, helement]
        rfl

/-- A walk keeps all element types exactly where each visit does. -/
theorem walk_elementTypes_iff {types : Types E} {body : List Operation}
    (hssa : body.Pairwise fun op later => later.result ≠ op.result ∧
      later.result ∉ op.operands) :
    (∀ value, (walk types body value).elementType = (types value).elementType) ↔
      EveryVisit KeepsElementType types body := by
  induction body generalizing types with
  | nil => simp [walk, EveryVisit]
  | cons op rest ih =>
      obtain ⟨hlater, hrest⟩ := List.pairwise_cons.mp hssa
      rw [EveryVisit, ← ih hrest, ← visit_elementType_iff]
      have hown : walk types (op :: rest) op.result = visit types op op.result :=
        walk_of_notMem fun later hmem => (hlater later hmem).1
      have hsame : ∀ (_ : (visit types op op.result).elementType =
          (types op.result).elementType) (value : Nat),
          (visit types op value).elementType = (types value).elementType := by
        intro hresult value
        by_cases hvalue : value = op.result
        · rw [hvalue, hresult]
        · rw [visit_of_ne hvalue]
      constructor
      · intro h
        have hresult := h op.result
        rw [hown] at hresult
        exact ⟨hresult, fun value => (h value).trans (hsame hresult value).symm⟩
      · rintro ⟨hresult, h⟩ value
        exact (h value).trans (hsame hresult value)

/-! ### The pass -/

/-- The inferred shapes are the broadcast of the operands', a second run changes nothing, and
    unification does not depend on order and grouping; the element types are kept exactly where
    the first operand of each operation with an inferred shape has that of its result. -/
theorem runOnOperation_sound_iff (func : FuncOp E) :
    ((∀ value, ((runOnOperation func).types value).elementType =
        (func.types value).elementType) ↔
      EveryVisit KeepsElementType func.types func.body) ∧
    (∀ op ∈ func.body, op.name ≠ none → ∀ lhs rhs, op.operands = [lhs, rhs] →
      (inferSymbolicShapes (operandShapes (runOnOperation func).types op)).isSome →
      ∀ (σ : Name → Int) (actualLhs actualRhs actual : List Int),
        ((runOnOperation func).types lhs).ActualShape σ actualLhs →
        ((runOnOperation func).types rhs).ActualShape σ actualRhs →
        broadcast actualLhs actualRhs = some actual →
        ((runOnOperation func).types op.result).ActualShape σ actual) ∧
    runOnOperation (runOnOperation func) = runOnOperation func ∧
    (∀ shape1 shape2, Option.Rel SameShape (unify shape1 shape2).toOption
      (unify shape2 shape1).toOption) ∧
    ∀ shape1 shape2 shape3, Option.Rel SameShape
      ((unify shape1 shape2).bind fun shape => unify shape shape3).toOption
      ((unify shape2 shape3).bind fun shape => unify shape1 shape).toOption := by
  refine ⟨walk_elementTypes_iff func.ssa, ?_, runOnOperation_idempotent func, unify_comm,
    unify_assoc⟩
  intro op hop hname lhs rhs hoperands hinferred σ actualLhs actualRhs actual hl hr hactual
  exact runOnOperation_sound func hop hname hoperands hinferred hl hr hactual

/-- The element types of the example. -/
inductive ElementType where
  | i1
  | i32
deriving DecidableEq

/-- `arith.cmpi` of two vectors of four words. -/
def comparison : FuncOp ElementType where
  types value := if value = 2 then .rankedTensor [some 4] .i1 else .rankedTensor [some 4] .i32
  body := [⟨some .cmpi, [0, 1], 2⟩]
  own := by decide
  ssa := by decide

/-- The result of a comparison gets the element type of the operands. -/
theorem runOnOperation_comparison :
    (comparison.types 2).elementType = some .i1 ∧
      ((runOnOperation comparison).types 2).elementType = some .i32 := by
  decide

end SymReloc.ShapeInference
