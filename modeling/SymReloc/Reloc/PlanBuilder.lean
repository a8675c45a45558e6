import SymReloc.Reloc.Canonicalize
import SymReloc.Wire.Plan

/-!
# The plan builder

`PlanBuilder` is the state in which one chain of operations is folded: the axes in destination
order with their source strides, the pads, the value stages with the coordinate of their
channel, and the constraints met so far.  Each operation has a transfer function; a reshape is
taken apart into groups of axes that are kept, split or merged.  `finalize` makes the plan.

The affine expressions of the channels are built by the framework's own operators, which
simplify as they build; these and the arithmetic of a fill constant are parameters.
-/

namespace SymReloc

open SymExpr

/-! ### The state -/

/-- One plan axis in destination order. -/
structure PlanAxis where
  name : Name
  extent : SymExpr
  srcStride : SymExpr
deriving DecidableEq, Repr

/-- One pending pad: the fill in the current element type and as it was written. -/
structure PlanPad where
  axis : Nat
  lo : SymExpr
  hi : SymExpr
  value : TypedAttr
  original : TypedAttr
  stage : Nat
deriving DecidableEq, Repr

/-- A typed value transform on an operand of a shape; the parameters are constants or bindings. -/
structure ValueOp (α : Type) where
  transform : ValueTransformKind
  policy : NumericPolicyKind
  inputType : MlirType
  outputType : MlirType
  shape : List SymExpr
  scale : Option α
  zeroPoint : Option α
  axis : Option Int
deriving DecidableEq, Repr

/-- One folded value stage: its transform, and how the current coordinates select the channel. -/
structure PlanValueStage (α : Type) where
  op : ValueOp α
  channel : Option AffineExpr
deriving DecidableEq, Repr

structure PlanBuilder (α : Type) where
  src : TensorDescAttr
  axes : List PlanAxis
  perm : List Int
  divisibility : List DivisibilityAttr
  pads : List PlanPad
  elementType : MlirType
  stages : List (PlanValueStage α)
  symbolNames : List Name

/-- `SymbolicTensorType`. -/
structure SymbolicTensorType where
  shape : List SymExpr
  elementType : MlirType
  elementType_ok : elementType.IsTensorElement

/-- What folding takes from elsewhere: the operators of affine expressions, and
    `foldFillThroughStage`. -/
structure Folding (α : Type) where
  affine : AffineExprKind → AffineExpr → AffineExpr → AffineExpr
  foldFillThroughStage : TypedAttr → ValueOp α → Option TypedAttr

variable {α : Type}

namespace PlanBuilder

/-- Seed the identity plan. -/
def start (input : SymbolicTensorType) : PlanBuilder α where
  src := .packed input.shape input.elementType input.elementType_ok
  axes := (input.shape.zip (canonicalRowMajorStrides wrap64 input.shape)).zipIdx.map fun entry =>
    ⟨axisName entry.2, entry.1.1, entry.1.2⟩
  perm := (List.range input.shape.length).map fun k : Nat => (k : Int)
  divisibility := []
  pads := []
  elementType := input.elementType
  stages := []
  symbolNames := []

def findPad (plan : PlanBuilder α) (axis : Nat) : Option PlanPad :=
  plan.pads.find? fun pad => pad.axis == axis

/-- Some folded stage carries a channel expression. -/
def tracksChannels (plan : PlanBuilder α) : Bool :=
  plan.stages.any fun stage => stage.channel.isSome

end PlanBuilder

/-! ### Affine expressions -/

namespace AffineExpr

/-- The dimensions an expression mentions. -/
def dims : AffineExpr → List Nat
  | .dim position => [position]
  | .symbol _ => []
  | .constant _ => []
  | .binary _ lhs rhs => lhs.dims ++ rhs.dims

/-- `replaceDims`: an expression that stays the same is not rebuilt. -/
def replaceDims (affine : AffineExprKind → AffineExpr → AffineExpr → AffineExpr)
    (replacements : List AffineExpr) : AffineExpr → AffineExpr
  | .dim position => replacements.getD position (.dim position)
  | .symbol position => .symbol position
  | .constant value => .constant value
  | .binary kind lhs rhs =>
      let lhs' := lhs.replaceDims affine replacements
      let rhs' := rhs.replaceDims affine replacements
      if lhs' = lhs ∧ rhs' = rhs then .binary kind lhs rhs else affine kind lhs' rhs'

end AffineExpr

namespace PlanBuilder

def add (lhs rhs : SymExpr) : SymExpr := getSimplifiedBinaryExpr wrap64 .add lhs rhs

def mul (lhs rhs : SymExpr) : SymExpr := getSimplifiedBinaryExpr wrap64 .mul lhs rhs

section
variable (folding : Folding α)

/-- `lhs - rhs`, which affine expressions write as `lhs + rhs * -1`. -/
def affineSub (lhs rhs : AffineExpr) : AffineExpr :=
  folding.affine .add lhs (folding.affine .mul rhs (.constant (-1)))

/-- `symToAffine`: symbols become positions of the table, which grows. -/
def symToAffine : SymExpr → List Name → AffineExpr × List Name
  | .constant value, names => (.constant value, names)
  | .symbol name, names =>
      if name ∈ names then (.symbol (names.idxOf name), names)
      else (.symbol names.length, names ++ [name])
  | .binary opcode lhs rhs, names =>
      let left := symToAffine lhs names
      let right := symToAffine rhs left.2
      let expr := match opcode with
        | .add => folding.affine .add left.1 right.1
        | .sub => affineSub folding left.1 right.1
        | .mul => folding.affine .mul left.1 right.1
        | .div => folding.affine .floorDiv left.1 right.1
        | .mod => folding.affine .mod left.1 right.1
      (expr, right.2)

/-- Rewrite every channel expression. -/
def replaceChannelDims (replacements : List AffineExpr) (stages : List (PlanValueStage α)) :
    List (PlanValueStage α) :=
  stages.map fun stage =>
    { stage with channel := stage.channel.map (AffineExpr.replaceDims folding.affine replacements) }

/-! ### `foldTranspose` -/

/-- Destination axis `k` becomes the old axis `opPerm[k]`; no result where the source asserts
    that `opPerm` is a permutation of the axes. -/
def foldTranspose (plan : PlanBuilder α) (opPerm : List Nat) : Option (PlanBuilder α) := do
  let axes ← opPerm.mapM fun source => plan.axes[source]?
  let perm ← opPerm.mapM fun source => plan.perm[source]?
  let dims := (List.range plan.axes.length).map fun k => AffineExpr.dim (opPerm.idxOf k)
  pure { plan with
    axes := axes
    perm := perm
    pads := plan.pads.map fun pad => { pad with axis := opPerm.idxOf pad.axis }
    stages := if plan.tracksChannels then replaceChannelDims folding dims plan.stages
      else plan.stages }

/-! ### `foldReshape` -/

/-- An old axis with its place and its pad. -/
structure Entry where
  index : Nat
  axis : PlanAxis
  pad : Option PlanPad

def entries (plan : PlanBuilder α) : List Entry :=
  plan.axes.zipIdx.map fun entry => ⟨entry.2, entry.1, plan.findPad entry.2⟩

def Entry.padded (entry : Entry) : SymExpr :=
  match entry.pad with
  | some pad => paddedExtent wrap64 entry.axis.extent pad.lo pad.hi
  | none => entry.axis.extent

/-- The constants of a list of extents multiplied, and its only symbolic entry. -/
def splitFactors : List SymExpr → Int → Option SymExpr → Option (Int × Option SymExpr)
  | [], product, symbolic => some (product, symbolic)
  | .constant value :: rest, product, symbolic =>
      splitFactors rest (wrap64 (product * value)) symbolic
  | target :: rest, product, none => splitFactors rest product (some target)
  | _ :: _, _, some _ => none

/-- `matchesSplit`: whether the targets decompose one axis, and the divisor that its extent must
    have where that is not known. -/
def matchesSplit (extent : SymExpr) (targets : List SymExpr) :
    Option (Option { divisor : Int // 1 < divisor }) :=
  match splitFactors targets 1 none with
  | none => none
  | some (product, none) => if extent = .constant product then some none else none
  | some (product, some symbolic) =>
      match extent with
      | .constant _ => none
      | _ =>
          if areLogicallyEqual symbolic
              (getSimplifiedBinaryExpr wrap64 .div extent (.constant product)) then
            some (if h : 1 < product then some ⟨product, h⟩ else none)
          else none

/-- Axes whose strides are peeled off from the right. -/
def appendSplitAxes (targets : List SymExpr) (srcStride : SymExpr) : List PlanAxis :=
  (targets.foldr (fun target result =>
    (⟨[], target, result.2⟩ :: result.1, mul result.2 target)) ([], srcStride)).1

/-- Old axes and targets with one product, and what is left on either side. -/
structure Group where
  olds : List Entry
  targets : List SymExpr
  divisor : Option { divisor : Int // 1 < divisor }
  restOld : List Entry
  restTargets : List SymExpr

/-- The products provably match, or the one axis taken is split into the targets. -/
def settles (olds : List Entry) (oldProd : SymExpr) (targets : List SymExpr) (newProd : SymExpr) :
    Option (Option { divisor : Int // 1 < divisor }) :=
  if proveEqual oldProd newProd = .proven then some none
  else
    match olds with
    | [entry] => matchesSplit entry.padded targets
    | _ => none

/-- Take more axes or targets until the group settles.  The fuel is the number of those left;
    without any there is no growth. -/
def growGroup : Nat → List Entry → SymExpr → List SymExpr → SymExpr → List Entry → List SymExpr →
    Option Group
  | 0, olds, oldProd, targets, newProd, restOld, restTargets =>
      (settles olds oldProd targets newProd).map fun divisor =>
        ⟨olds, targets, divisor, restOld, restTargets⟩
  | fuel + 1, olds, oldProd, targets, newProd, restOld, restTargets =>
      match settles olds oldProd targets newProd with
      | some divisor => some ⟨olds, targets, divisor, restOld, restTargets⟩
      | none =>
          let takeOld := match restOld with
            | [] => none
            | entry :: rest => growGroup fuel (olds ++ [entry])
                (mul oldProd entry.padded) targets newProd rest restTargets
          let takeTarget := match restTargets with
            | [] => none
            | target :: rest => growGroup fuel olds oldProd (targets ++ [target])
                (mul newProd target) restOld rest
          match oldProd, newProd with
          | .constant oldValue, .constant newValue =>
              if oldValue < newValue then takeOld else takeTarget
          | _, _ => if olds.length = 1 ∧ restTargets ≠ [] then takeTarget else takeOld

/-- What a reshape has made of the axes so far: the new axes, the constraints, and for each old
    axis its new place, if it is kept, and its coordinate in the new ones. -/
structure Reshaped where
  axes : List PlanAxis
  emitted : List DivisibilityAttr
  moved : List (Option Nat × AffineExpr)
  symbols : List Name

/-- `recombine`: the row-major number of a run of new dimensions, from the innermost on; the
    outermost extent is not converted. -/
def recombine (first : Nat) : List SymExpr → List Name → AffineExpr → AffineExpr →
    AffineExpr × List Name
  | [], symbols, sum, _ => (sum, symbols)
  | target :: outer, symbols, sum, stride =>
      let sum' := folding.affine .add sum
        (folding.affine .mul (.dim (first + outer.length)) stride)
      match outer with
      | [] => (sum', symbols)
      | _ =>
          let extent := symToAffine folding target symbols
          recombine first outer extent.2 sum' (folding.affine .mul stride extent.1)

/-- The coordinate of the run, its targets outermost first. -/
def recombined (first : Nat) (targets : List SymExpr) (symbols : List Name) :
    AffineExpr × List Name :=
  recombine folding first targets.reverse symbols (.constant 0) (.constant 1)

/-- The product of the extents of the axes behind one. -/
def innerProduct : List Entry → AffineExpr → List Name → AffineExpr × List Name
  | [], product, symbols => (product, symbols)
  | entry :: rest, product, symbols =>
      let extent := symToAffine folding entry.axis.extent symbols
      innerProduct rest (folding.affine .mul product extent.1) extent.2

/-- The coordinates of merged axes in the merged one, the outermost without a remainder.  Only
    the axes that some channel mentions are converted. -/
def mergedCoordinates (referenced : Nat → Bool) (merged : AffineExpr) (outermost : Bool) :
    List Entry → List Name → List (Option Nat × AffineExpr) × List Name
  | [], symbols => ([], symbols)
  | entry :: rest, symbols =>
      if referenced entry.index then
        let inner := innerProduct folding rest (.constant 1) symbols
        let quotient := folding.affine .floorDiv merged inner.1
        let coordinate := if outermost then (quotient, inner.2)
          else
            let extent := symToAffine folding entry.axis.extent inner.2
            (folding.affine .mod quotient extent.1, extent.2)
        let others := mergedCoordinates referenced merged false rest coordinate.2
        ((none, coordinate.1) :: others.1, others.2)
      else
        let others := mergedCoordinates referenced merged false rest symbols
        ((none, .constant 0) :: others.1, others.2)

/-- Neighbours are contiguous on the source side. -/
def contiguousRun : List Entry → Bool
  | outer :: inner :: rest =>
      isContiguousCompatible wrap64
        ⟨outer.axis.name, outer.axis.extent, outer.axis.srcStride, outer.axis.srcStride⟩
        ⟨inner.axis.name, inner.axis.extent, inner.axis.srcStride, inner.axis.srcStride⟩ &&
      contiguousRun (inner :: rest)
  | _ => true

/-- One axis split into a run of targets. -/
def splitGroup (plan : PlanBuilder α) (referenced : Nat → Bool) (entry : Entry)
    (targets : List SymExpr) (divisor : Option { divisor : Int // 1 < divisor })
    (done : Reshaped) : Option Reshaped :=
  if entry.pad.isSome then none
  else
    let emitted := match divisor with
      | none => done.emitted
      | some divisor =>
          let constraint : DivisibilityAttr :=
            ⟨entry.axis.extent, divisor.1, one_pos.trans divisor.2⟩
          if constraint ∈ plan.divisibility ∨ constraint ∈ done.emitted then done.emitted
          else done.emitted ++ [constraint]
    let coordinate := if plan.tracksChannels && referenced entry.index
      then recombined folding done.axes.length targets done.symbols
      else (.constant 0, done.symbols)
    some {
      axes := done.axes ++ appendSplitAxes targets entry.axis.srcStride
      emitted := emitted
      moved := done.moved ++ [(none, coordinate.1)]
      symbols := coordinate.2 }

/-- A run of axes merged, and split again if there are several targets. -/
def mergeGroup (plan : PlanBuilder α) (referenced : Nat → Bool) (olds : List Entry)
    (targets : List SymExpr) (done : Reshaped) : Option Reshaped :=
  if olds.any (fun entry => entry.pad.isSome) || !contiguousRun olds then none
  else
    match olds.getLast? with
    | none => none
    | some last =>
        let axes := match targets with
          | [target] => [⟨[], target, last.axis.srcStride⟩]
          | _ => appendSplitAxes targets last.axis.srcStride
        let merged := if plan.tracksChannels then
            match targets with
            | [_] => (.dim done.axes.length, done.symbols)
            | _ => recombined folding done.axes.length targets done.symbols
          else (.constant 0, done.symbols)
        let coordinates := if plan.tracksChannels
          then mergedCoordinates folding referenced merged.1 true olds merged.2
          else (olds.map fun _ => (none, .constant 0), merged.2)
        some {
          axes := done.axes ++ axes
          emitted := done.emitted
          moved := done.moved ++ coordinates.1
          symbols := coordinates.2 }

/-- A group is split, kept or merged. -/
def foldGroup (plan : PlanBuilder α) (referenced : Nat → Bool) (group : Group) (done : Reshaped) :
    Option Reshaped :=
  match group.olds, group.targets, group.divisor with
  | [entry], [_], none =>
      some { done with
        axes := done.axes ++ [entry.axis]
        moved := done.moved ++ [(some done.axes.length, .dim done.axes.length)] }
  | [entry], targets, divisor => plan.splitGroup folding referenced entry targets divisor done
  | olds, targets, _ => plan.mergeGroup folding referenced olds targets done

/-- Unit axes left on the old side are dropped. -/
def absorbOlds : List Entry → Reshaped → Option Reshaped
  | [], done => some done
  | entry :: rest, done =>
      if proveEqual entry.padded (.constant 1) = .proven ∧ entry.pad = none then
        absorbOlds rest { done with moved := done.moved ++ [(none, .constant 0)] }
      else none

/-- Unit targets left are new axes. -/
def absorbTargets : List SymExpr → Reshaped → Option Reshaped
  | [], done => some done
  | target :: rest, done =>
      if proveEqual target (.constant 1) = .proven then
        absorbTargets rest { done with axes := done.axes ++ [⟨[], target, .constant 1⟩] }
      else none

/-- The loop over the groups; the fuel is the number of old axes. -/
def reshapeLoop (plan : PlanBuilder α) (referenced : Nat → Bool) : Nat → List Entry →
    List SymExpr → Reshaped → Option Reshaped
  | fuel + 1, entry :: restOld, target :: restTargets, done => do
      let group ← growGroup (restOld.length + restTargets.length) [entry]
        entry.padded [target] target restOld restTargets
      let done ← plan.foldGroup folding referenced group done
      reshapeLoop plan referenced fuel group.restOld group.restTargets done
  | _, olds, targets, done => do
      let done ← absorbOlds olds done
      absorbTargets targets done

/-- An extent that is a constant but not positive. -/
def nonPositive : SymExpr → Bool
  | .constant value => value ≤ 0
  | _ => false

/-- `foldReshape`; nothing where no factorisation exists with what is known. -/
def foldReshape (plan : PlanBuilder α) (targetShape : List SymExpr) : Option (PlanBuilder α) :=
  if targetShape = [] ∨ targetShape.any nonPositive ∨
      plan.axes.any (fun axis => nonPositive axis.extent) then none
  else
    let referenced := fun k => plan.stages.any fun stage =>
      stage.channel.any fun channel => k ∈ channel.dims
    match plan.reshapeLoop folding referenced plan.axes.length plan.entries targetShape
        ⟨[], [], [], plan.symbolNames⟩ with
    | none => none
    | some done => do
        -- every padded axis survives as it is
        let pads ← plan.pads.mapM fun pad => do
          let moved ← done.moved[pad.axis]?
          let axis ← moved.1
          pure { pad with axis := axis }
        pure { plan with
          axes := done.axes.zipIdx.map fun entry => { entry.1 with name := axisName entry.2 }
          perm := (List.range done.axes.length).map fun k : Nat => (k : Int)
          divisibility := plan.divisibility ++ done.emitted
          pads := pads
          stages := if plan.tracksChannels
            then replaceChannelDims folding (done.moved.map Prod.snd) plan.stages
            else plan.stages
          symbolNames := if plan.tracksChannels then done.symbols else plan.symbolNames }

/-! ### `foldPad` -/

/-- A width that is a constant below zero. -/
def negative : SymExpr → Bool
  | .constant value => value < 0
  | _ => false

/-- The channels behind a new leading width: their coordinate along the axis is less by it. -/
def shiftChannels (plan : PlanBuilder α) (axis : Nat) (lo : SymExpr) : PlanBuilder α :=
  if plan.tracksChannels ∧ lo ≠ .constant 0 then
    let shift := symToAffine folding lo plan.symbolNames
    let dims := ((List.range plan.axes.length).map AffineExpr.dim).set axis
      (affineSub folding (.dim axis) shift.1)
    { plan with
      stages := replaceChannelDims folding dims plan.stages, symbolNames := shift.2 }
  else plan

/-- `foldPad`; the reason is empty where the source leaves it so. -/
def foldPad (plan : PlanBuilder α) (axis : Int) (lo hi : SymExpr) (value : TypedAttr) :
    Except String (PlanBuilder α) :=
  if axis < 0 ∨ (plan.axes.length : Int) ≤ axis then .error ""
  else if negative lo ∨ negative hi then .error ""
  else if lo = .constant 0 ∧ hi = .constant 0 then .ok plan
  else
    match plan.findPad axis.toNat with
    | none =>
        .ok (shiftChannels folding
          { plan with
            pads := plan.pads ++ [⟨axis.toNat, lo, hi, value, value, plan.stages.length⟩] }
          axis.toNat lo)
    | some pad =>
        if pad.value ≠ value then .error ""
        else if pad.stage ≠ plan.stages.length then .error "pad_stage"
        else
          .ok (shiftChannels folding
            { plan with
              pads := plan.pads.set (plan.pads.findIdx fun pad => pad.axis == axis.toNat)
                { pad with lo := add pad.lo lo, hi := add pad.hi hi } }
            axis.toNat lo)

/-! ### `foldValueStage` -/

/-- `foldValueStage`. -/
def foldValueStage (plan : PlanBuilder α) (op : ValueOp α) : Except String (PlanBuilder α) :=
  if op.inputType ≠ plan.elementType ∨ op.shape.length ≠ plan.axes.length then
    .error "type_chain"
  else if ∃ axis ∈ op.axis, axis < 0 ∨ (plan.axes.length : Int) ≤ axis then .error "channel_axis"
  else if plan.pads ≠ [] ∧ op.axis.isSome then .error "fill_not_foldable"
  else
    match plan.pads.mapM fun pad => folding.foldFillThroughStage pad.value op with
    | none => .error "fill_not_foldable"
    | some fused =>
        .ok { plan with
          pads := (plan.pads.zip fused).map fun entry => { entry.1 with value := entry.2 }
          stages := plan.stages ++ [⟨op, op.axis.map fun axis => .dim axis.toNat⟩]
          elementType := op.outputType }

end

end PlanBuilder

/-! ### Chains -/

/-- An operation of a chain. -/
inductive ChainOp (α : Type) where
  | transpose (perm : List Nat)
  | reshape (targetShape : List SymExpr)
  | pad (axis : Int) (lo hi : SymExpr) (value : TypedAttr)
  | value (op : ValueOp α)
deriving DecidableEq, Repr

namespace PlanBuilder

/-- `foldChainOp`; the reason of a layout bail is empty. -/
def foldChainOp (folding : Folding α) (plan : PlanBuilder α) :
    ChainOp α → Except String (PlanBuilder α)
  | .transpose perm => ((plan.foldTranspose folding perm).map Except.ok).getD (.error "")
  | .reshape targetShape => ((plan.foldReshape folding targetShape).map Except.ok).getD (.error "")
  | .pad axis lo hi value => plan.foldPad folding axis lo hi value
  | .value op => plan.foldValueStage folding op

/-- The operations of a chain folded one after the other. -/
def foldChain (folding : Folding α) : List (ChainOp α) → PlanBuilder α →
    Except String (PlanBuilder α)
  | [], plan => .ok plan
  | op :: ops, plan => plan.foldChainOp folding op >>= foldChain folding ops

/-! ### `finalize` -/

/-- The destination extents: `(extent + lo) + hi` along a padded axis. -/
def dstExtents (plan : PlanBuilder α) : List SymExpr := plan.entries.map Entry.padded

/-- The plan that `finalize` hands to the verifier. -/
def finalPlan (plan : PlanBuilder α) (inverse : AffineMap)
    (helement : plan.elementType.IsTensorElement) : PlanAttr :=
  let dst := TensorDescAttr.packed plan.dstExtents plan.elementType helement
  let strides := canonicalRowMajorStrides wrap64 plan.dstExtents
  let axes := (plan.axes.zip strides).map fun entry =>
    (⟨entry.1.name, entry.1.extent, entry.1.srcStride, entry.2⟩ : AxisInfoAttr)
  let pads := plan.pads.map fun pad => (⟨pad.axis, pad.lo, pad.hi, pad.value⟩ : PadFillAttr)
  { src := plan.src
    dst
    perm := plan.perm
    axes
    padFill := pads
    divisibility := plan.divisibility
    alignment := []
    contiguity := plan.axes.map fun axis => proveEqual axis.srcStride (.constant 1) = .proven
    noCopy := false
    runtimePadCheck := pads.any fun pad => provePadRange wrap64 pad axes dst == .unknown
    inverse }

/-- `finalize`: nothing where the plan does not verify. -/
def finalize (plan : PlanBuilder α) : Option PlanAttr :=
  if helement : plan.elementType.IsTensorElement then do
    let inverse ← permutationInverse plan.perm
    let final := plan.finalPlan inverse helement
    if final.verify wrap64 = .ok () then some final else none
  else none

end PlanBuilder

end SymReloc
