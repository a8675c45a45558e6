import SymReloc.Reloc.Proof
import SymReloc.Reloc.Types
import SymReloc.Wire.DecodeLayout

/-!
# The plan attribute and its verifier

`#reloc.plan` as the compiler holds it: symbolic descriptors, axes, pads and
constraints, with the inverse index map.  The small attributes carry what their
own verifiers check.  `PlanAttr.verify` makes the cross-checks in the order of
the source; `PlanAttr.verify_eq_ok` reads the outcome back as the conjunction
`PlanAttr.Verified`.
-/

namespace SymReloc

open SymExpr

/-! ### Checks that report the first failure -/

/-- Go on only if the condition holds. -/
def expect {ε : Type} (condition : Prop) [Decidable condition] (reason : ε) : Except ε Unit :=
  if condition then .ok () else .error reason

theorem expect_bind_eq_ok {ε α : Type} {condition : Prop} [Decidable condition] {reason : ε}
    {next : Unit → Except ε α} {value : α} :
    (expect condition reason >>= next) = .ok value ↔ condition ∧ next () = .ok value := by
  unfold expect
  split
  · simp only [*, true_and]
    rfl
  · simp only [*, false_and, iff_false]
    intro h
    cases h

theorem expect_eq_ok {ε : Type} {condition : Prop} [Decidable condition] {reason : ε} :
    expect condition reason = .ok () ↔ condition := by
  unfold expect
  split <;> simp [*]

theorem except_bind_eq_ok {ε α β : Type} {run : Except ε α} {next : α → Except ε β} {value : β} :
    (run >>= next) = .ok value ↔ ∃ middle, run = .ok middle ∧ next middle = .ok value := by
  cases run with
  | error reason =>
      refine iff_of_false (fun h => by cases h) ?_
      rintro ⟨_, h, _⟩
      cases h
  | ok middle =>
      refine ⟨fun h => ⟨middle, rfl, h⟩, ?_⟩
      rintro ⟨_, h, hnext⟩
      cases h
      exact hnext

/-- A check of every element, stopping at the first failure. -/
def checkEach {ε α : Type} (check : α → Except ε Unit) : List α → Except ε Unit
  | [] => .ok ()
  | value :: values => check value >>= fun _ => checkEach check values

theorem checkEach_eq_ok {ε α : Type} {check : α → Except ε Unit} {values : List α} :
    checkEach check values = .ok () ↔ ∀ value ∈ values, check value = .ok () := by
  induction values with
  | nil => simp [checkEach]
  | cons value values ih =>
      rw [checkEach, except_bind_eq_ok, List.forall_mem_cons]
      constructor
      · rintro ⟨_, hvalue, hrest⟩
        exact ⟨hvalue, ih.mp hrest⟩
      · rintro ⟨hvalue, hrest⟩
        exact ⟨(), hvalue, ih.mpr hrest⟩

/-! ### Attributes -/

/-- `#reloc.tensor_desc`; no strides means row-major. -/
structure TensorDescAttr where
  extents : List SymExpr
  strides : List SymExpr
  offset : SymExpr
  elementType : MlirType
  strides_size : strides = [] ∨ strides.length = extents.length
  elementType_ok : elementType.IsTensorElement

/-- A tensor without strides of its own, at offset zero. -/
def TensorDescAttr.packed (extents : List SymExpr) (elementType : MlirType)
    (helement : elementType.IsTensorElement) : TensorDescAttr where
  extents := extents
  strides := []
  offset := .constant 0
  elementType := elementType
  strides_size := .inl rfl
  elementType_ok := helement

/-- `#reloc.axis_info`. -/
structure AxisInfoAttr where
  name : Name
  extent : SymExpr
  srcStride : SymExpr
  dstStride : SymExpr
deriving DecidableEq, Repr

/-- `#reloc.pad_fill`; the destination axis is verified non-negative. -/
structure PadFillAttr where
  dstAxis : Nat
  lo : SymExpr
  hi : SymExpr
  value : TypedAttr
deriving DecidableEq, Repr

/-- `#reloc.divisibility`. -/
@[ext]
structure DivisibilityAttr where
  expr : SymExpr
  divisor : Int
  divisor_pos : 0 < divisor
deriving Repr

instance : DecidableEq DivisibilityAttr := fun _ _ =>
  decidable_of_iff _ DivisibilityAttr.ext_iff.symm

/-- `#reloc.alignment`; the axis is verified non-negative. -/
@[ext]
structure AlignmentAttr where
  axis : Nat
  bytes : Int
  bytes_pos : 0 < bytes
deriving Repr

instance : DecidableEq AlignmentAttr := fun _ _ =>
  decidable_of_iff _ AlignmentAttr.ext_iff.symm

/-- `#reloc.plan`. -/
structure PlanAttr where
  src : TensorDescAttr
  dst : TensorDescAttr
  perm : List Int
  axes : List AxisInfoAttr
  padFill : List PadFillAttr
  divisibility : List DivisibilityAttr
  alignment : List AlignmentAttr
  contiguity : List Bool
  noCopy : Bool
  runtimePadCheck : Bool
  inverse : AffineMap

/-! ### The verifier -/

/-- The diagnostics of `PlanAttr::verify`, each with the values it prints. -/
inductive PlanError where
  | permSize (perm axes : Nat)
  | contiguitySize (contiguity axes : Nat)
  | dstRank (rank axes : Nat)
  | padAxis (axis axes : Nat)
  | padLoNegative (axis : Nat) (lo : SymExpr)
  | padHiNegative (axis : Nat) (hi : SymExpr)
  | padInconsistent (axis : Nat) (sum dstExtent : SymExpr)
  | padNotProvable (axis : Nat)
  | alignmentAxis (axis axes : Nat)
  | permEntry (axes : Nat) (value : Int)
  | inverseShape (axes numDims numResults : Nat)
  | inversePermutation (expected : List AffineExpr)
  | dstStride (axis : Nat) (found expected : SymExpr)
  | contiguityStride (axis : Nat) (srcStride : SymExpr)
deriving DecidableEq, Repr

section
variable (w : Int → Int)

/-- The extent of an axis with its pads: `(extent + lo) + hi`, simplified. -/
def paddedExtent (extent lo hi : SymExpr) : SymExpr :=
  getSimplifiedBinaryExpr w .add (getSimplifiedBinaryExpr w .add extent lo) hi

/-- The pad checks: widths not provably negative, and `extent + lo + hi` equal to
    the destination extent, provably unless the run-time check is set. -/
def checkPad (axes : List AxisInfoAttr) (dst : TensorDescAttr) (runtimePadCheck : Bool)
    (pad : PadFillAttr) : Except PlanError Unit :=
  match axes[pad.dstAxis]?, dst.extents[pad.dstAxis]? with
  | some axis, some dstExtent => do
      expect (proveLessEqual (.constant 0) pad.lo ≠ .disproven)
        (PlanError.padLoNegative pad.dstAxis pad.lo)
      expect (proveLessEqual (.constant 0) pad.hi ≠ .disproven)
        (PlanError.padHiNegative pad.dstAxis pad.hi)
      let sum := paddedExtent w axis.extent pad.lo pad.hi
      expect (proveEqual sum dstExtent ≠ .disproven)
        (PlanError.padInconsistent pad.dstAxis sum dstExtent)
      expect (proveEqual sum dstExtent ≠ .unknown ∨ runtimePadCheck = true)
        (PlanError.padNotProvable pad.dstAxis)
  | _, _ => .error (.padAxis pad.dstAxis axes.length)

/-- The strides the destination descriptor implies. -/
def TensorDescAttr.effectiveStrides (desc : TensorDescAttr) : List SymExpr :=
  if desc.strides = [] then canonicalRowMajorStrides w desc.extents else desc.strides

/-- A destination stride must not provably disagree with the descriptor. -/
def checkDstStride (entry : (AxisInfoAttr × SymExpr) × Nat) : Except PlanError Unit :=
  expect (proveEqual entry.1.1.dstStride entry.1.2 ≠ .disproven)
    (.dstStride entry.2 entry.1.1.dstStride entry.1.2)

/-- A contiguity flag asserts a unit source stride. -/
def checkContiguity (entry : (Bool × AxisInfoAttr) × Nat) : Except PlanError Unit :=
  expect (entry.1.1 = true → proveEqual entry.1.2.srcStride (.constant 1) ≠ .disproven)
    (.contiguityStride entry.2 entry.1.2.srcStride)

/-- `PlanAttr::verify`. -/
def PlanAttr.verify (plan : PlanAttr) : Except PlanError Unit := do
  expect (plan.perm.length = plan.axes.length)
    (PlanError.permSize plan.perm.length plan.axes.length)
  expect (plan.contiguity = [] ∨ plan.contiguity.length = plan.axes.length)
    (PlanError.contiguitySize plan.contiguity.length plan.axes.length)
  expect (plan.dst.extents.length = plan.axes.length)
    (PlanError.dstRank plan.dst.extents.length plan.axes.length)
  checkEach (checkPad w plan.axes plan.dst plan.runtimePadCheck) plan.padFill
  checkEach (fun entry : AlignmentAttr => expect (entry.axis < plan.axes.length)
    (PlanError.alignmentAxis entry.axis plan.axes.length)) plan.alignment
  match firstBadEntry plan.axes.length [] plan.perm with
  | some value => .error (.permEntry plan.axes.length value)
  | none => do
      expect (plan.inverse.numDims = plan.axes.length ∧
          plan.inverse.results.length = plan.axes.length)
        (PlanError.inverseShape plan.axes.length plan.inverse.numDims plan.inverse.results.length)
      expect (plan.axes ≠ [] → plan.inverse.isPermutation = true →
          plan.inverse.results = inversePermutationResults plan.perm)
        (PlanError.inversePermutation (inversePermutationResults plan.perm))
      checkEach checkDstStride (plan.axes.zip (plan.dst.effectiveStrides w)).zipIdx
      checkEach checkContiguity (plan.contiguity.zip plan.axes).zipIdx

/-- Everything a verified plan satisfies. -/
structure PlanAttr.Verified (plan : PlanAttr) : Prop where
  perm_size : plan.perm.length = plan.axes.length
  contiguity_size : plan.contiguity = [] ∨ plan.contiguity.length = plan.axes.length
  dst_rank : plan.dst.extents.length = plan.axes.length
  pads : ∀ pad ∈ plan.padFill, checkPad w plan.axes plan.dst plan.runtimePadCheck pad = .ok ()
  alignment_lt : ∀ entry ∈ plan.alignment, entry.axis < plan.axes.length
  perm_nodup : plan.perm.Nodup
  perm_range : ∀ value ∈ plan.perm, 0 ≤ value ∧ value < plan.axes.length
  inverse_dims : plan.inverse.numDims = plan.axes.length
  inverse_results : plan.inverse.results.length = plan.axes.length
  inverse_permutation : plan.axes ≠ [] → plan.inverse.isPermutation = true →
    plan.inverse.results = inversePermutationResults plan.perm
  dstStrides : ∀ entry ∈ (plan.axes.zip (plan.dst.effectiveStrides w)).zipIdx,
    checkDstStride entry = .ok ()
  contiguity : ∀ entry ∈ (plan.contiguity.zip plan.axes).zipIdx, checkContiguity entry = .ok ()

end

theorem PlanAttr.verify_eq_ok {w : Int → Int} {plan : PlanAttr} :
    plan.verify w = .ok () ↔ plan.Verified w := by
  have hbind : ∀ {run : Except PlanError Unit} {next : Except PlanError Unit},
      (run >>= fun _ => next) = .ok () ↔ run = .ok () ∧ next = .ok () := by
    intro run next
    rw [except_bind_eq_ok]
    exact ⟨fun ⟨_, h⟩ => h, fun h => ⟨(), h⟩⟩
  simp only [PlanAttr.verify, hbind, expect_eq_ok, checkEach_eq_ok]
  cases hperm : firstBadEntry plan.axes.length [] plan.perm with
  | some value =>
      refine iff_of_false (fun h => by cases h.2.2.2.2.2) fun h => ?_
      have hnone : firstBadEntry plan.axes.length [] plan.perm = none :=
        firstBadEntry_eq_none.mpr ⟨h.perm_nodup, h.perm_range, fun _ _ => List.not_mem_nil⟩
      rw [hperm] at hnone
      cases hnone
  | none =>
      obtain ⟨hnodup, hrange, -⟩ := firstBadEntry_eq_none.mp hperm
      simp only [hbind, expect_eq_ok, checkEach_eq_ok]
      constructor
      · rintro ⟨h₁, h₂, h₃, h₄, h₅, ⟨h₆, h₇⟩, h₈, h₉, h₁₀⟩
        exact ⟨h₁, h₂, h₃, h₄, h₅, hnodup, hrange, h₆, h₇, h₈, h₉, h₁₀⟩
      · intro h
        exact ⟨h.perm_size, h.contiguity_size, h.dst_rank, h.pads, h.alignment_lt,
          ⟨h.inverse_dims, h.inverse_results⟩, h.inverse_permutation, h.dstStrides, h.contiguity⟩

/-- A verified pad names an axis and a destination extent. -/
theorem checkPad_axis_lt {w : Int → Int} {axes : List AxisInfoAttr} {dst : TensorDescAttr}
    {check : Bool} {pad : PadFillAttr} (h : checkPad w axes dst check pad = .ok ()) :
    pad.dstAxis < axes.length := by
  unfold checkPad at h
  split at h
  · rename_i haxis _
    exact (List.getElem?_eq_some_iff.mp haxis).1
  · cases h

end SymReloc
