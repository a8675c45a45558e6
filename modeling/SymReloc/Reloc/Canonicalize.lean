import Mathlib.Data.List.Sort
import Mathlib.Data.Prod.Lex
import Mathlib.Data.List.Lex
import SymReloc.Reloc.Plan

/-!
# Plan canonicalization

`canonicalizePlan` folds the constants of a plan, sorts its pads, alignments and
constraints, and, where the destination is row-major and the inverse a permutation,
merges neighbouring axes that are contiguous on both sides.  The destination
descriptor and the destination strides are then computed anew from the axes left.
-/

namespace SymReloc

open SymExpr

/-- `llvm::sort` by a key; entries with one key keep their order. -/
def sortOn {α κ : Type} [LinearOrder κ] (key : α → κ) (values : List α) : List α :=
  values.insertionSort fun a b => key a ≤ key b

/-! ### Printed expressions -/

/-- The characters of a text, as numbers. -/
def charCodes (text : String) : List Nat := text.toList.map Char.toNat

def operatorSymbol : SymbolicExprOp → String
  | .add => "+"
  | .sub => "-"
  | .mul => "*"
  | .div => "//"
  | .mod => "%"

def hexDigit (digit : Nat) : Nat := if digit < 10 then 48 + digit else 55 + digit

/-- A byte of a quoted string: as it is when it prints, else by two hexadecimal digits. -/
def escapeByte (byte : UInt8) : List Nat :=
  let code := byte.toNat
  if code = 92 then [92, 92]
  else if 32 ≤ code ∧ code < 127 ∧ code ≠ 34 then [code]
  else [92, hexDigit (code / 16), hexDigit (code % 16)]

/-- The printed attribute. -/
def printExpr : SymExpr → List Nat
  | .symbol name => charCodes "#sym.symbol<\"" ++ name.flatMap escapeByte ++ charCodes "\">"
  | .constant value => charCodes "#sym.constant<" ++ charCodes (toString value) ++ charCodes ">"
  | .binary opcode lhs rhs => charCodes "#sym.binary<" ++ printExpr lhs ++
      charCodes (" " ++ operatorSymbol opcode ++ " ") ++ printExpr rhs ++ charCodes ">"

/-! ### Axes -/

section
variable (w : Int → Int)

/-- Rebuild an expression bottom-up through the simplifier. -/
def resimplify : SymExpr → SymExpr
  | .symbol name => .symbol name
  | .constant value => .constant value
  | .binary opcode lhs rhs =>
      getSimplifiedBinaryExpr w opcode (resimplify lhs) (resimplify rhs)

structure CanonAxis where
  extent : SymExpr
  srcStride : SymExpr
  dstStride : SymExpr
deriving DecidableEq, Repr

/-- The outer stride is the inner one times the inner extent. -/
def isContiguousCompatible (outer inner : AxisInfoAttr) : Bool :=
  areLogicallyEqual outer.srcStride
    (getSimplifiedBinaryExpr w .mul inner.srcStride inner.extent)

/-- Contiguity on a chosen stride side. -/
def contiguousOn (outer inner : CanonAxis) (srcSide : Bool) : Bool :=
  let outerStride := if srcSide then outer.srcStride else outer.dstStride
  let innerStride := if srcSide then inner.srcStride else inner.dstStride
  isContiguousCompatible w ⟨[116], outer.extent, outerStride, outerStride⟩
    ⟨[116], inner.extent, innerStride, innerStride⟩

/-- What the merge loop works on. -/
structure CanonState where
  axes : List CanonAxis
  perm : List Int
  pads : List PadFillAttr
  alignments : List AlignmentAttr

/-- A pad or an alignment names the axis. -/
def CanonState.referenced (state : CanonState) (k : Nat) : Bool :=
  state.pads.any (fun pad => pad.dstAxis == k) ||
    state.alignments.any fun alignment => alignment.axis == k

/-- The axes `k` and `k + 1` are free, neighbours in the view, and contiguous on the
    source side. -/
def CanonState.joinable (state : CanonState) (k : Nat) : Bool :=
  match state.axes[k]?, state.axes[k + 1]?, state.perm[k]?, state.perm[k + 1]? with
  | some outer, some inner, some view, some next =>
      !state.referenced k && !state.referenced (k + 1) && next == view + 1 &&
        contiguousOn w outer inner true
  | _, _, _, _ => false

/-- They are also contiguous on the destination side. -/
def CanonState.dstContiguous (state : CanonState) (k : Nat) : Bool :=
  match state.axes[k]?, state.axes[k + 1]? with
  | some outer, some inner => contiguousOn w outer inner false
  | _, _ => false

def CanonState.mergeable (state : CanonState) (k : Nat) : Bool :=
  state.joinable w k && state.dstContiguous w k

/-- An axis index after the axis behind `k` is gone. -/
def dropIndex (k axis : Nat) : Nat := if k < axis then axis - 1 else axis

/-- The axes `k` and `k + 1` become one. -/
def CanonState.merge (state : CanonState) (k : Nat) : CanonState :=
  match state.axes[k]?, state.axes[k + 1]?, state.perm[k]? with
  | some outer, some inner, some view =>
      let removedView := view + 1
      { axes := (state.axes.set k
          { extent := getSimplifiedBinaryExpr w .mul outer.extent inner.extent
            srcStride := inner.srcStride
            dstStride := inner.dstStride }).eraseIdx (k + 1)
        perm := (state.perm.eraseIdx (k + 1)).map fun view =>
          if removedView < view then view - 1 else view
        pads := state.pads.map fun pad => { pad with dstAxis := dropIndex k pad.dstAxis }
        alignments := state.alignments.map fun alignment =>
          { alignment with axis := dropIndex k alignment.axis } }
  | _, _, _ => state

/-- Merge the first pair that can be, and scan again. -/
def CanonState.mergeLoop : Nat → CanonState → CanonState
  | 0, state => state
  | fuel + 1, state =>
      match (List.range (state.axes.length - 1)).find? (state.mergeable w) with
      | some k => mergeLoop fuel (state.merge w k)
      | none => state

/-! ### The plan -/

/-- No two neighbouring entries name one axis. -/
def uniquePadAxes : List PadFillAttr → Bool
  | first :: second :: rest => first.dstAxis != second.dstAxis && uniquePadAxes (second :: rest)
  | _ => true

def PlanAttr.sortedPads (plan : PlanAttr) : List PadFillAttr :=
  sortOn PadFillAttr.dstAxis (plan.padFill.map fun pad =>
    { pad with lo := resimplify w pad.lo, hi := resimplify w pad.hi })

/-- The gate of axis merging. -/
def PlanAttr.foldNormal (plan : PlanAttr) : Bool :=
  plan.dst.strides == [] && plan.inverse.isPermutation && uniquePadAxes (plan.sortedPads w)

/-- The state before the merge loop. -/
def PlanAttr.canonState (plan : PlanAttr) : CanonState where
  axes := plan.axes.map fun axis =>
    { extent := resimplify w axis.extent
      srcStride := resimplify w axis.srcStride
      dstStride := resimplify w axis.dstStride }
  perm := plan.perm
  pads := plan.sortedPads w
  alignments := sortOn (fun alignment => toLex (alignment.axis, alignment.bytes)) plan.alignment

/-- The state after it. -/
def PlanAttr.mergedState (plan : PlanAttr) : CanonState :=
  if plan.foldNormal w then (plan.canonState w).mergeLoop w plan.axes.length
  else plan.canonState w

/-- The constraints with their constants folded, each once. -/
def foldDivisibility : List DivisibilityAttr → List DivisibilityAttr → List DivisibilityAttr
  | found, [] => found
  | found, entry :: rest =>
      let simplified := { entry with expr := resimplify w entry.expr }
      foldDivisibility (if simplified ∈ found then found else found ++ [simplified]) rest

def divisibilityKey (entry : DivisibilityAttr) : List Nat ×ₗ Int :=
  toLex (printExpr entry.expr, entry.divisor)

/-- An extent of the rebuilt descriptor: the pads of the axis added in order. -/
def widenExtent (k : Nat) (extent : SymExpr) (pads : List PadFillAttr) : SymExpr :=
  pads.foldl (fun extent pad =>
    if pad.dstAxis = k then paddedExtent w extent pad.lo pad.hi else extent) extent

def CanonState.dstExtents (state : CanonState) : List SymExpr :=
  state.axes.zipIdx.map fun entry => widenExtent w entry.2 entry.1.extent state.pads

def resimplifyDesc (desc : TensorDescAttr) : TensorDescAttr where
  extents := desc.extents.map (resimplify w)
  strides := desc.strides.map (resimplify w)
  offset := resimplify w desc.offset
  elementType := desc.elementType
  strides_size := by
    rcases desc.strides_size with h | h
    · exact .inl (by rw [h, List.map_nil])
    · exact .inr (by rw [List.length_map, List.length_map, h])
  elementType_ok := desc.elementType_ok

/-- The destination descriptor; in fold-normal form it has no strides. -/
def PlanAttr.canonDst (plan : PlanAttr) : TensorDescAttr :=
  if plan.foldNormal w then
    { extents := (plan.mergedState w).dstExtents w
      strides := []
      offset := resimplify w plan.dst.offset
      elementType := plan.dst.elementType
      strides_size := .inl rfl
      elementType_ok := plan.dst.elementType_ok }
  else resimplifyDesc w plan.dst

/-- The name of axis `k`: `d` and the number. -/
def axisName (k : Nat) : Name := 100 :: (Nat.toDigits 10 k).map fun digit => UInt8.ofNat digit.toNat

def PlanAttr.canonAxes (plan : PlanAttr) : List AxisInfoAttr :=
  let state := plan.mergedState w
  let strides := if plan.foldNormal w then canonicalRowMajorStrides w (state.dstExtents w)
    else state.axes.map CanonAxis.dstStride
  (state.axes.zip strides).zipIdx.map fun entry =>
    { name := axisName entry.2
      extent := entry.1.1.extent
      srcStride := entry.1.1.srcStride
      dstStride := entry.1.2 }

/-- `inversePermutation(getPermutationMap(perm))`, for a permutation. -/
def permutationInverse (perm : List Int) : Option AffineMap :=
  if h : ∀ result ∈ inversePermutationResults perm, result.InRange perm.length 0 then
    some { numDims := perm.length, numSymbols := 0, results := inversePermutationResults perm,
           inRange := h }
  else none

def combineProofs : Proof → List Proof → Proof
  | result, [] => result
  | _, .disproven :: _ => .disproven
  | _, .unknown :: rest => combineProofs .unknown rest
  | result, .proven :: rest => combineProofs result rest

/-- `provePadRange`. -/
def provePadRange (pad : PadFillAttr) (axes : List AxisInfoAttr) (dst : TensorDescAttr) : Proof :=
  match axes[pad.dstAxis]?, dst.extents[pad.dstAxis]? with
  | some axis, some dstExtent =>
      combineProofs .proven [proveLessEqual (.constant 0) pad.lo,
        proveLessEqual (.constant 0) pad.hi,
        proveEqual (paddedExtent w axis.extent pad.lo pad.hi) dstExtent]
  | _, _ => .disproven

/-- `isPureView`. -/
def isPureView (plan : PlanAttr) : Bool :=
  plan.padFill.isEmpty &&
    plan.axes.all (fun axis => areLogicallyEqual axis.srcStride axis.dstStride) &&
    areLogicallyEqual plan.src.offset plan.dst.offset

/-- `canonicalizePlan` before the verification of its result. -/
def PlanAttr.canonical (plan : PlanAttr) (inverse : AffineMap) : PlanAttr :=
  let state := plan.mergedState w
  let dst := plan.canonDst w
  let axes := plan.canonAxes w
  let candidate : PlanAttr :=
    { src := resimplifyDesc w plan.src
      dst, perm := state.perm, axes
      padFill := state.pads
      divisibility := sortOn divisibilityKey (foldDivisibility w [] plan.divisibility)
      alignment := state.alignments
      contiguity := state.axes.map fun axis => proveEqual axis.srcStride (.constant 1) == .proven
      noCopy := false
      runtimePadCheck := state.pads.any fun pad => provePadRange w pad axes dst == .unknown
      inverse }
  { candidate with noCopy := isPureView candidate }

/-- The inverse map of the result: rebuilt from the merged permutation, or kept. -/
def PlanAttr.canonInverse (plan : PlanAttr) : Option AffineMap :=
  if plan.foldNormal w then permutationInverse (plan.mergedState w).perm else some plan.inverse

/-- `canonicalizePlan`; none when the rebuilt plan does not verify. -/
def canonicalizePlan (plan : PlanAttr) : Option PlanAttr := do
  let inverse ← plan.canonInverse w
  let canonical := plan.canonical w inverse
  if canonical.verify w = .ok () then some canonical else none

end

end SymReloc
