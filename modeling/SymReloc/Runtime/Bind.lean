import SymReloc.Runtime.Eval
import SymReloc.Wire.DecodeLayout

/-!
# Binding a layout plan

`bind` evaluates a plan under symbol values and produces the concrete extents,
strides and pads the executors walk.  Divisibility, pad ranges and the sign of
extents and strides are checked here; adjacent axes that are contiguous on both
sides are merged, and alignments are renamed to the merged axes.

The cost model that may pick a strategy is left out: without one the strategy
depends on the footprint alone.
-/

namespace SymReloc

open Outcome

/-! ### Inputs, results and errors -/

/-- The caller's symbol values: an ordered map, so every name occurs once. -/
structure SymbolMap where
  entries : List (Name × Int)
  nodup : (entries.map Prod.fst).Nodup
  fits : ∀ entry ∈ entries, FitsI64 entry.2

def SymbolMap.find (map : SymbolMap) (name : Name) : Option Int :=
  (map.entries.find? fun entry => entry.1 = name).map Prod.snd

inductive Strategy where
  | auto
  | viewNoCopy
  | singleThreadSimd
  | multiThreadTiled
  | chunkedPipeline
deriving DecidableEq, Repr

/-- A concrete pad of a merged axis. -/
structure PadRegion where
  axis : Nat
  lo : Int
  hi : Int
  fillBits : Nat
deriving DecidableEq, Repr

/-- The concrete plan the executors consume. -/
structure BoundPlan where
  extents : List Int
  srcStrides : List Int
  dstStrides : List Int
  perm : List Nat
  padRegions : List PadRegion
  elementSize : Nat
  totalBytes : Int
  noCopy : Bool
  typed : Bool
  strategy : Strategy
  L : Int
  requiredAlignments : List Alignment
deriving DecidableEq, Repr

/-- The errors of binding.  `refused` is any complaint about values; the rest says
    that the plan is malformed or where an expression failed. -/
inductive BindError where
  | refused (text : String)
  | field (what : String) (inner : EvalError)
  | noAxes
  | padAxis
  | padAxisOfDst
  | alignmentAxis
  | channelAxis
  | within (context : String) (inner : BindError)
deriving DecidableEq, Repr

def BindError.message : BindError → String
  | .refused text => text
  | .field what inner => what ++ ": " ++ inner.message
  | .noAxes => "plan must have >= 1 axis (v0)"
  | .padAxis => "pad dst_axis out of range"
  | .padAxisOfDst => "pad dst_axis out of range for dst extents"
  | .alignmentAxis => "alignment axis out of range"
  | .channelAxis => "stage channel axis out of range"
  | .within context inner => context ++ inner.message

/-- The errors a malformed plan causes, as opposed to those of its values. -/
def BindError.Structural : BindError → Prop
  | .refused _ => False
  | .field _ inner => inner.Structural
  | .within _ inner => inner.Structural
  | _ => True

def BindError.OfValues (error : BindError) : Prop := ¬ error.Structural

/-! ### Symbols and fields -/

/-- `resolveSymbols`: the values in table order; the map must name the table's
    symbols and no others. -/
def resolveSymbols (table : List Name) (map : SymbolMap) : Outcome BindError (List Int) := do
  forEach map.entries fun entry =>
    require (entry.1 ∈ table) (.refused ("unknown symbol in binding: " ++ nameText entry.1))
  mapEach table fun name =>
    match map.find name with
    | some value => .ok value
    | none => .error (.refused ("unbound symbol: " ++ nameText name))

/-- `evalField`. -/
def evalField (stream : ExprStream) (symbols : List Int) (what : String) :
    Outcome BindError Int :=
  (evalExpr stream symbols).mapError (.field what)

/-! ### Axes and pads -/

/-- One concrete axis before merging. -/
structure ConcreteAxis where
  extent : Int
  srcStride : Int
  dstStride : Int
  padded : Bool
  lo : Int
  hi : Int
  fillBits : Nat
deriving DecidableEq, Repr

def checkDivisibility (symbols : List Int) (entry : Divisibility) : Outcome BindError Unit := do
  require (0 < entry.divisor) (.refused "divisibility divisor must be positive")
  let value ← evalField entry.expr symbols "divisibility expr"
  require (value.tmod entry.divisor = 0)
    (.refused ("divisibility violated: value " ++ toString value ++ " not divisible by " ++
      toString entry.divisor))

def bindAxis (symbols : List Int) (axis : Axis) : Outcome BindError ConcreteAxis := do
  let extent ← evalField axis.extent symbols "axis extent"
  let srcStride ← evalField axis.srcStride symbols "axis src_stride"
  let dstStride ← evalField axis.dstStride symbols "axis dst_stride"
  require (1 ≤ extent) (.refused "axis extent must be >= 1 (v0 rejects zero/negative)")
  require (0 ≤ srcStride ∧ 0 ≤ dstStride) (.refused "strides must be non-negative in v0")
  pure { extent, srcStride, dstStride, padded := false, lo := 0, hi := 0, fillBits := 0 }

/-- The pad range check, where the verifier deferred it. -/
def checkPadRange (plan : RelocationPlan) (symbols : List Int) (pad : PadFill)
    (extent lo hi : Int) : Outcome BindError Unit :=
  if plan.runtimePadCheck = false then .ok ()
  else do
    require (pad.dstAxis < plan.dst.extents.length) .padAxisOfDst
    let dst ← fetch plan.dst.extents pad.dstAxis
    let dstExtent ← evalField dst symbols "dst extent"
    let sum ← checkedOr (extent + lo) (.refused "overflow in pad-range check")
    let sum ← checkedOr (sum + hi) (.refused "overflow in pad-range check")
    require (sum = dstExtent)
      (.refused ("pad range inconsistent: extent + lo + hi (" ++ toString sum ++
        ") != dst extent (" ++ toString dstExtent ++ ")"))

/-- One pad, attached to its axis; a later pad of the same axis replaces it. -/
def attachPad (plan : RelocationPlan) (symbols : List Int) (axes : List ConcreteAxis)
    (pad : PadFill) : Outcome BindError (List ConcreteAxis) := do
  let lo ← evalField pad.lo symbols "pad lo"
  let hi ← evalField pad.hi symbols "pad hi"
  require (pad.dstAxis < plan.axes.length) .padAxis
  let axis ← fetch axes pad.dstAxis
  require (0 ≤ lo ∧ 0 ≤ hi) (.refused "pad width negative")
  checkPadRange plan symbols pad axis.extent lo hi
  pure (axes.set pad.dstAxis { axis with padded := true, lo, hi, fillBits := pad.fillBits })

def attachPads (plan : RelocationPlan) (symbols : List Int) :
    List PadFill → List ConcreteAxis → Outcome BindError (List ConcreteAxis)
  | [], axes => .ok axes
  | pad :: rest, axes => do
      let axes ← attachPad plan symbols axes pad
      attachPads plan symbols rest axes

/-! ### Merging -/

/-- Two adjacent unpadded axes, contiguous on both sides, as one. -/
def mergeAxes (outer inner : ConcreteAxis) : Option ConcreteAxis :=
  if outer.padded ∨ inner.padded then none
  else do
    let srcProd ← checked64 (inner.srcStride * inner.extent)
    let dstProd ← checked64 (inner.dstStride * inner.extent)
    let extProd ← checked64 (outer.extent * inner.extent)
    if outer.srcStride = srcProd ∧ outer.dstStride = dstProd then
      some { extent := extProd, srcStride := inner.srcStride, dstStride := inner.dstStride,
             padded := false, lo := 0, hi := 0, fillBits := 0 }
    else none

/-- The axes with the number of original axes each covers, after merging the first
    pair that can be merged. -/
def coalesceStep : List (ConcreteAxis × Nat) → Option (List (ConcreteAxis × Nat))
  | outer :: inner :: rest =>
      match mergeAxes outer.1 inner.1 with
      | some merged => some ((merged, outer.2 + inner.2) :: rest)
      | none => (coalesceStep (inner :: rest)).map (outer :: ·)
  | _ => none

/-- Merge until no pair can be merged; every step leaves one axis fewer. -/
def coalesceLoop : Nat → List (ConcreteAxis × Nat) → List (ConcreteAxis × Nat)
  | 0, axes => axes
  | fuel + 1, axes =>
      match coalesceStep axes with
      | some axes => coalesceLoop fuel axes
      | none => axes

def coalesce (axes : List ConcreteAxis) : List (ConcreteAxis × Nat) :=
  coalesceLoop axes.length (axes.map fun axis => (axis, 1))

/-- The merged axis of every original axis. -/
def originalToCoalesced (axes : List (ConcreteAxis × Nat)) : List Nat :=
  axes.zipIdx.flatMap fun entry => List.replicate entry.1.2 entry.2

/-! ### The bound plan -/

/-- The extent of an axis with its pads. -/
def ConcreteAxis.paddedExtent (axis : ConcreteAxis) : Outcome BindError Int :=
  if axis.padded then do
    let sum ← checkedOr (axis.extent + axis.lo) (.refused "overflow computing padded extent")
    checkedOr (sum + axis.hi) (.refused "overflow computing padded extent")
  else .ok axis.extent

def totalElements : List ConcreteAxis → Int → Outcome BindError Int
  | [], total => .ok total
  | axis :: rest, total => do
      let padded ← axis.paddedExtent
      let total ← checkedOr (total * padded) (.refused "overflow computing total element count")
      totalElements rest total

def padRegions (axes : List ConcreteAxis) : List PadRegion :=
  (axes.zipIdx.filter fun entry => entry.1.padded).map fun entry =>
    { axis := entry.2, lo := entry.1.lo, hi := entry.1.hi, fillBits := entry.1.fillBits }

def bindAlignment (axisCount : Nat) (coalesced : List Nat) (entry : Alignment) :
    Outcome BindError Alignment := do
  require (entry.axis < axisCount) .alignmentAxis
  let axis ← fetch coalesced entry.axis
  pure { axis, bytes := entry.bytes }

/-- The innermost run of unit stride on both sides. -/
def innerRun (axes : List ConcreteAxis) : Int :=
  match axes.getLast? with
  | some inner => if inner.srcStride = 1 ∧ inner.dstStride = 1 then inner.extent else 1
  | none => 1

def kL2Bytes : Int := 256 * 1024
def kMultiThreadMaxBytes : Int := 256 * 1024 * 1024

def chooseStrategy (override : Strategy) (noCopy : Bool) (totalBytes : Int) : Strategy :=
  if override ≠ .auto then override
  else if noCopy then .viewNoCopy
  else if totalBytes ≤ kL2Bytes then .singleThreadSimd
  else if totalBytes ≤ kMultiThreadMaxBytes then .multiThreadTiled
  else .chunkedPipeline

/-- The last part of `bind`, over the concrete axes. -/
def assembleBound (plan : RelocationPlan) (override : Strategy) (axes : List ConcreteAxis) :
    Outcome BindError BoundPlan := do
  let merged := coalesce axes
  let bitwidth := plan.dst.elementType.bitwidth
  require (bitwidth ≠ 0 ∧ bitwidth % 8 = 0)
    (.refused "element type bitwidth must be a positive multiple of 8 in v0")
  let elementSize := bitwidth / 8
  let requiredAlignments ← mapEach plan.alignment
    (bindAlignment plan.axes.length (originalToCoalesced merged))
  let axes := merged.map Prod.fst
  let elements ← totalElements axes 1
  let totalBytes ← checkedOr (elements * elementSize) (.refused "overflow computing total bytes")
  pure {
    extents := axes.map ConcreteAxis.extent
    srcStrides := axes.map ConcreteAxis.srcStride
    dstStrides := axes.map ConcreteAxis.dstStride
    perm := plan.perm
    padRegions := padRegions axes
    elementSize
    totalBytes
    noCopy := plan.noCopy
    typed := false
    strategy := chooseStrategy override plan.noCopy totalBytes
    L := innerRun axes
    requiredAlignments }

/-- `bind`, without a cost model. -/
def bind (plan : RelocationPlan) (map : SymbolMap) (override : Strategy) :
    Outcome BindError BoundPlan := do
  let symbols ← resolveSymbols plan.symbols map
  forEach plan.divisibility (checkDivisibility symbols)
  require (plan.axes ≠ []) .noAxes
  let axes ← mapEach plan.axes (bindAxis symbols)
  let axes ← attachPads plan symbols plan.padFill axes
  assembleBound plan override axes

/-! ### Decoded plans are never malformed -/

theorem ofValues_refused (text : String) : (BindError.refused text).OfValues := id

theorem ensures_refused {value : Int} (text : String) :
    (checkedOr value (BindError.refused text)).Ensures BindError.OfValues fun _ => True :=
  (ensures_checkedOr (ofValues_refused text)).mono fun _ _ => trivial

theorem ensures_requireRefused {c : Prop} [Decidable c] (text : String) :
    (require c (BindError.refused text)).Ensures BindError.OfValues fun _ => True :=
  (ensures_require (ofValues_refused text)).mono fun _ _ => trivial

theorem ensures_resolveSymbols (table : List Name) (map : SymbolMap) :
    (resolveSymbols table map).Ensures BindError.OfValues
      fun symbols => symbols.length = table.length := by
  refine (ensures_forEach fun entry _ => ensures_requireRefused _).bind fun _ _ => ?_
  refine ensures_length_mapEach fun name _ => ?_
  cases map.find name with
  | none => exact ofValues_refused _
  | some value => trivial

theorem ensures_evalField {symbolCount : Nat} {stream : ExprStream} {symbols : List Int}
    (h : stream.WellFormed (.plan symbolCount)) (hsymbols : symbols.length = symbolCount)
    (what : String) :
    (evalField stream symbols what).Ensures BindError.OfValues fun _ => True :=
  (h.ensures_evalExpr hsymbols).mapError fun _ herror => herror

theorem ensures_bindAxis {symbolCount : Nat} {symbols : List Int} {axis : Axis}
    (h : axis.WellFormed symbolCount) (hsymbols : symbols.length = symbolCount) :
    (bindAxis symbols axis).Ensures BindError.OfValues fun _ => True := by
  refine (ensures_evalField h.extent hsymbols _).bind fun extent _ =>
    (ensures_evalField h.srcStride hsymbols _).bind fun srcStride _ =>
      (ensures_evalField h.dstStride hsymbols _).bind fun dstStride _ => ?_
  refine (ensures_requireRefused _).bind fun _ _ => ?_
  exact (ensures_requireRefused _).bind fun _ _ => trivial

theorem ensures_attachPad {plan : RelocationPlan} (hplan : plan.LayoutWellFormed)
    {symbols : List Int} (hsymbols : symbols.length = plan.symbols.length)
    {axes : List ConcreteAxis} (haxes : axes.length = plan.axes.length) {pad : PadFill}
    (hpad : pad ∈ plan.padFill) :
    (attachPad plan symbols axes pad).Ensures BindError.OfValues
      fun result => result.length = plan.axes.length := by
  have hwf := hplan.padFill pad hpad
  have hdst : pad.dstAxis < plan.dst.extents.length := by
    rw [hplan.shape.dst_rank]
    exact hwf.dstAxis_lt
  refine (ensures_evalField hwf.lo hsymbols _).bind fun lo _ =>
    (ensures_evalField hwf.hi hsymbols _).bind fun hi _ => ?_
  rw [require, if_pos hwf.dstAxis_lt, ok_bind]
  refine (ensures_fetch (haxes ▸ hwf.dstAxis_lt)).bind fun axis _ => ?_
  refine (ensures_requireRefused _).bind fun _ _ => ?_
  refine Ensures.andThen
    (ensures_ite (fun _ => ensures_ok.mpr trivial) fun _ => ?_) fun _ => ?_
  · rw [require, if_pos hdst, ok_bind]
    refine (ensures_fetch hdst).bind fun dst hmem =>
      (ensures_evalField (hplan.shape.dst_wf.extents.each dst hmem) hsymbols _).bind fun _ _ => ?_
    exact (ensures_refused _).bind fun _ _ => (ensures_refused _).bind fun _ _ =>
      ensures_requireRefused _
  · rw [pure_eq, ensures_ok, List.length_set]
    exact haxes

theorem ensures_attachPads {plan : RelocationPlan} (hplan : plan.LayoutWellFormed)
    {symbols : List Int} (hsymbols : symbols.length = plan.symbols.length)
    {axes : List ConcreteAxis} (haxes : axes.length = plan.axes.length) {pads : List PadFill}
    (hpads : ∀ pad ∈ pads, pad ∈ plan.padFill) :
    (attachPads plan symbols pads axes).Ensures BindError.OfValues
      fun result => result.length = plan.axes.length := by
  induction pads generalizing axes with
  | nil => exact haxes
  | cons pad rest ih =>
      exact (ensures_attachPad hplan hsymbols haxes (hpads pad (by simp))).bind fun _ hlength =>
        ih hlength fun p hp => hpads p (by simp [hp])

/-- Merging keeps the number of original axes. -/
theorem coalesceStep_sum {axes axes' : List (ConcreteAxis × Nat)}
    (h : coalesceStep axes = some axes') : (axes'.map Prod.snd).sum = (axes.map Prod.snd).sum := by
  induction axes generalizing axes' with
  | nil => cases h
  | cons outer rest ih =>
      cases rest with
      | nil => cases h
      | cons inner rest =>
          unfold coalesceStep at h
          split at h
          · cases h
            simp only [List.map_cons, List.sum_cons]
            omega
          · obtain ⟨tail, htail, rfl⟩ := Option.map_eq_some_iff.mp h
            simp only [List.map_cons, List.sum_cons, ih htail]

theorem coalesce_sum (axes : List ConcreteAxis) :
    ((coalesce axes).map Prod.snd).sum = axes.length := by
  have hloop : ∀ (fuel : Nat) (merged : List (ConcreteAxis × Nat)),
      ((coalesceLoop fuel merged).map Prod.snd).sum = (merged.map Prod.snd).sum := by
    intro fuel
    induction fuel with
    | zero => intro merged; rfl
    | succ fuel ih =>
        intro merged
        unfold coalesceLoop
        split
        · rename_i merged' hstep
          rw [ih, coalesceStep_sum hstep]
        · rfl
  rw [coalesce, hloop, List.map_map]
  simp [Function.comp_def]

theorem length_originalToCoalesced (axes : List (ConcreteAxis × Nat)) :
    (originalToCoalesced axes).length = (axes.map Prod.snd).sum := by
  have hzip : ∀ (merged : List (ConcreteAxis × Nat)) (start : Nat),
      ((merged.zipIdx start).flatMap fun entry => List.replicate entry.1.2 entry.2).length =
        (merged.map Prod.snd).sum := by
    intro merged
    induction merged with
    | nil => intro start; rfl
    | cons axis rest ih =>
        intro start
        simp only [List.zipIdx_cons, List.flatMap_cons, List.length_append, List.length_replicate,
          ih, List.map_cons, List.sum_cons]
  exact hzip axes 0

theorem ensures_totalElements (axes : List ConcreteAxis) (total : Int) :
    (totalElements axes total).Ensures BindError.OfValues fun _ => True := by
  induction axes generalizing total with
  | nil => trivial
  | cons axis rest ih =>
      refine Ensures.andThen (ensures_ite (fun _ => ?_) fun _ => trivial)
        fun padded => (ensures_refused _).bind fun _ _ => ih _
      exact (ensures_refused _).bind fun _ _ => ensures_refused _

theorem ensures_assembleBound {plan : RelocationPlan} (hplan : plan.LayoutWellFormed)
    (override : Strategy) {axes : List ConcreteAxis} (haxes : axes.length = plan.axes.length) :
    (assembleBound plan override axes).Ensures BindError.OfValues fun _ => True := by
  refine (ensures_requireRefused _).bind fun _ _ => ?_
  refine (ensures_length_mapEach fun entry hentry => ?_).bind fun _ _ => ?_
  · have hlt := (hplan.alignment entry hentry).axis_lt
    have hcovered : entry.axis < (originalToCoalesced (coalesce axes)).length := by
      rw [length_originalToCoalesced, coalesce_sum, haxes]
      exact hlt
    rw [bindAlignment, require, if_pos hlt, ok_bind]
    exact (ensures_fetch hcovered).bind fun _ _ => trivial
  · exact (ensures_totalElements _ _).bind fun _ _ => (ensures_refused _).bind fun _ _ => trivial

/-- Binding a decoded plan fails on values only. -/
theorem ensures_bind {plan : RelocationPlan} (hplan : plan.LayoutWellFormed) (map : SymbolMap)
    (override : Strategy) : (bind plan map override).Ensures BindError.OfValues fun _ => True := by
  refine (ensures_resolveSymbols plan.symbols map).bind fun symbols hsymbols => ?_
  refine (ensures_forEach fun entry hentry => ?_).bind fun _ _ => ?_
  · refine (ensures_requireRefused _).bind fun _ _ =>
      (ensures_evalField (hplan.divisibility entry hentry).expr hsymbols _).bind fun _ _ => ?_
    exact ensures_requireRefused _
  · have hne : plan.axes ≠ [] := by
      intro hnil
      have hpos := hplan.shape.axes_pos
      rw [hnil] at hpos
      simp at hpos
    rw [require, if_pos hne, ok_bind]
    refine (ensures_length_mapEach fun axis haxis =>
      ensures_bindAxis (hplan.shape.axes_wf axis haxis) hsymbols).bind fun axes haxes => ?_
    exact (ensures_attachPads hplan hsymbols haxes fun _ hpad => hpad).bind fun _ hlength =>
      ensures_assembleBound hplan override hlength

end SymReloc
