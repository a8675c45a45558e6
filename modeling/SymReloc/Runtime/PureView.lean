import SymReloc.Reloc.Meaning
import SymReloc.Runtime.AdmittedPlan
import SymReloc.Runtime.BoundAxes
import SymReloc.Runtime.EvalTree
import SymReloc.Wire.RoundTrip
import Mathlib.Tactic.Linarith

/-!
# Plans without a copy

`canonicalizePlan` sets `no_copy` on a plan without pads whose source and destination
strides are logically equal, and the runtime then publishes the source itself.  The
flag is right for every symbol value under which the plan binds: the published view and
the copying executor show the same bytes at the same positions.  The positions are those
of a packed tensor exactly where the compiler derived the strides of the destination.
-/

namespace SymReloc

open Outcome SymExpr

/-! ### The values of compiled expressions -/

/-- The value an operator of the runtime gives, if any. -/
def StackOp.value (op : StackOp) (a b : Int) : Option Int :=
  match evalOp op a b with
  | .ok value => some value
  | _ => none

theorem StackOp.value_eq_some {op : StackOp} {a b value : Int} :
    op.value a b = some value ↔ evalOp op a b = .ok value := by
  unfold StackOp.value
  split
  · rename_i hrun
    rw [hrun, Option.some.injEq, Outcome.ok.injEq]
  · rename_i hnone
    constructor
    · intro h
      cases h
    · intro h
      exact absurd h (hnone value)

/-- The checked evaluator runs a stream as the abstract stack machine does. -/
theorem run_of_evalTokens {symbols stack out : List Int} {stream : ExprStream}
    (h : evalTokens symbols none stream stack = .ok out) :
    ExprStream.run StackOp.value (fun index => symbols[index]?) (fun _ => none) stream stack =
      some out := by
  induction stream generalizing stack with
  | nil =>
      cases h
      rfl
  | cons token rest ih =>
      rw [evalTokens, bind_ok_iff] at h
      obtain ⟨next, htoken, hrest⟩ := h
      cases token with
      | pushSym index =>
          simp only [evalToken] at htoken
          split at htoken
          · rename_i hget
            cases htoken
            rw [ExprStream.run, hget, Option.bind_some]
            exact ih hrest
          · cases htoken
      | pushConst value =>
          cases htoken
          exact ih hrest
      | pushDim index => cases htoken
      | apply op =>
          rcases stack with _ | ⟨b, _ | ⟨a, stack⟩⟩
          · cases htoken
          · cases htoken
          · simp only [evalToken, bind_ok_iff, pure_eq, Outcome.ok.injEq] at htoken
            obtain ⟨result, hop, rfl⟩ := htoken
            rw [ExprStream.run, StackOp.value_eq_some.mpr hop, Option.bind_some]
            exact ih hrest

theorem evalWith_of_evalExpr {symbols : List Int} {tree : ExprTree} {value : Int}
    (h : evalExpr tree.stream symbols = .ok value) :
    tree.evalWith StackOp.value (fun index => symbols[index]?) (fun _ => none) = some value := by
  rw [evalExpr, evalStream, bind_ok_iff] at h
  obtain ⟨stack, hrun, hsingle⟩ := h
  rw [← ExprTree.evalWith_stream, ExprStream.evalWith, run_of_evalTokens hrun]
  split at hsingle
  · cases hsingle
    rfl
  · cases hsingle

/-- Where an operator of the runtime gives a value it is the exact one, and fits. -/
theorem apply_of_value {op : SymbolicExprOp} {a b value : Int} (ha : FitsI64 a)
    (h : op.stackOp.value a b = some value) : op.apply a b = some value ∧ FitsI64 value := by
  rw [StackOp.value_eq_some] at h
  cases op with
  | add =>
      obtain ⟨hfits, rfl⟩ := checkedOr_eq_ok.mp h
      exact ⟨rfl, hfits⟩
  | sub =>
      obtain ⟨hfits, rfl⟩ := checkedOr_eq_ok.mp h
      exact ⟨rfl, hfits⟩
  | mul =>
      obtain ⟨hfits, rfl⟩ := checkedOr_eq_ok.mp h
      exact ⟨rfl, hfits⟩
  | div =>
      obtain ⟨hzero, hoverflow, rfl⟩ := floorDiv_eq_ok h
      exact ⟨if_neg hzero, fits_fdiv ha hzero hoverflow⟩
  | mod =>
      simp only [SymbolicExprOp.stackOp, evalOp, bind_ok_iff, checkedOr_eq_ok] at h
      obtain ⟨quotient, hquotient, _, ⟨-, rfl⟩, hfits, rfl⟩ := h
      obtain ⟨hzero, -, rfl⟩ := floorDiv_eq_ok hquotient
      refine ⟨?_, hfits⟩
      rw [SymbolicExprOp.apply, if_neg hzero, Int.fmod_def, mul_comm]

/-- The value of a name in a binding. -/
def SymbolMap.value (map : SymbolMap) (name : Name) : Int := (map.find name).getD 0

theorem SymbolMap.fits_value (map : SymbolMap) (name : Name) : FitsI64 (map.value name) := by
  unfold SymbolMap.value SymbolMap.find
  cases hfind : map.entries.find? fun entry => entry.1 = name with
  | none => exact ⟨by decide, by decide⟩
  | some entry => exact map.fits entry (List.mem_of_find?_eq_some hfind)

theorem resolveSymbols_get {table : List Name} {map : SymbolMap} {symbols : List Int}
    (h : resolveSymbols table map = .ok symbols) :
    (fun index : Nat => symbols[index]?) = fun index => table[index]?.map map.value := by
  simp only [resolveSymbols, bind_ok_iff, exists_unit] at h
  obtain ⟨-, hvalues⟩ := h
  have hforall := mapEach_eq_ok.mp hvalues
  funext index
  by_cases hlt : index < table.length
  · have hlt' : index < symbols.length := hforall.length_eq ▸ hlt
    have hvalue := hforall.get hlt hlt'
    rw [List.getElem?_eq_getElem hlt, List.getElem?_eq_getElem hlt', Option.map_some]
    simp only [List.get_eq_getElem] at hvalue
    split at hvalue
    · rename_i hfind
      cases hvalue
      rw [SymbolMap.value, hfind, Option.getD_some]
    · cases hvalue
  · have hle : symbols.length ≤ index := by
      rw [← hforall.length_eq]
      omega
    rw [List.getElem?_eq_none hle, List.getElem?_eq_none (by omega), Option.map_none]

/-- A compiled expression that the runtime evaluates has that value as a word. -/
theorem SymExpr.evalWord_of_value {σ : Name → Int} (hσ : ∀ name, FitsI64 (σ name))
    {expr : SymExpr} (hconstants : expr.ConstantsFit) {value : Int}
    (h : expr.evalWith (fun op => op.stackOp.value) σ = some value) :
    expr.evalWord σ = some value := by
  induction expr generalizing value with
  | symbol name =>
      cases h
      exact checked64_eq_some.mpr ⟨hσ name, rfl⟩
  | constant c =>
      cases h
      exact checked64_eq_some.mpr ⟨hconstants, rfl⟩
  | binary opcode lhs rhs ihl ihr =>
      simp only [evalWith_binary, Option.bind_eq_some_iff] at h
      obtain ⟨l, hl, r, hr, hvalue⟩ := h
      have hword := ihl hconstants.1 hl
      obtain ⟨happly, hfits⟩ := apply_of_value (fits_of_evalWord hword) hvalue
      exact evalWord_binary.mpr ⟨l, r, value, hword, ihr hconstants.2 hr, happly,
        (wrap64_of_fits hfits).symm⟩

theorem evalWord_of_evalField {map : SymbolMap} {table : List Name} {symbols : List Int}
    {expr : SymExpr} {what : String} {value : Int}
    (hsymbols : resolveSymbols table map = .ok symbols)
    (hnames : ∀ name ∈ expr.symbolNames, name ∈ table) (hconstants : expr.ConstantsFit)
    (h : evalField (expr.toTree table).stream symbols what = .ok value) :
    expr.evalWord map.value = some value := by
  rw [evalField, mapError_eq_ok] at h
  have htree := evalWith_of_evalExpr h
  rw [resolveSymbols_get hsymbols, SymExpr.evalWith_toTree _ _ _ hnames] at htree
  exact SymExpr.evalWord_of_value map.fits_value hconstants htree

/-! ### The flag -/

section Flag

variable {plan p : PlanAttr}

/-- The flag of a canonical plan is the test of `isPureView`. -/
theorem noCopy_canonical (h : canonicalizePlan wrap64 plan = some p) (hview : p.noCopy = true) :
    p.padFill = [] ∧ ∀ axis ∈ p.axes, areLogicallyEqual axis.srcStride axis.dstStride = true := by
  obtain ⟨inverse, -, rfl, -⟩ := canonicalizePlan_eq_some.mp h
  have hpure : isPureView (plan.canonical wrap64 inverse) = true := hview
  simp only [isPureView, Bool.and_eq_true, List.isEmpty_iff, List.all_eq_true] at hpure
  exact hpure.1

/-- Without pads the rebuilt destination has the extents of the axes. -/
theorem dstExtents_bare {w : Int → Int} {state : CanonState} (hpads : state.pads = []) :
    state.dstExtents w = state.axes.map CanonAxis.extent := by
  rw [CanonState.dstExtents, hpads]
  exact map_zipIdx_fst CanonAxis.extent state.axes

/-- A plan without explicit destination strides gets those of a packed tensor. -/
theorem dstStrides_canonical (h : canonicalizePlan wrap64 plan = some p) (hpads : p.padFill = [])
    (hstrides : plan.dst.strides = []) (hinverse : plan.inverse.isPermutation = true) :
    p.axes.map AxisInfoAttr.dstStride =
      canonicalRowMajorStrides wrap64 (p.axes.map AxisInfoAttr.extent) := by
  obtain ⟨inverse, -, rfl, -⟩ := canonicalizePlan_eq_some.mp h
  have hpads : (plan.mergedState wrap64).pads = [] := hpads
  have hfold : plan.foldNormal wrap64 = true := by
    by_contra hfold
    rw [PlanAttr.mergedState, if_neg hfold] at hpads
    have hsorted : plan.sortedPads wrap64 = [] := hpads
    exact hfold (by simp [PlanAttr.foldNormal, hstrides, hinverse, hsorted, uniquePadAxes])
  have hlength := plan.length_canonStrides (w := wrap64)
  have haxes : (plan.canonical wrap64 inverse).axes.map AxisInfoAttr.dstStride =
        plan.canonStrides wrap64 ∧
      (plan.canonical wrap64 inverse).axes.map AxisInfoAttr.extent =
        (plan.mergedState wrap64).axes.map CanonAxis.extent := by
    constructor
    · show ((((plan.mergedState wrap64).axes.zip
        (plan.canonStrides wrap64)).zipIdx).map _).map _ = _
      rw [List.map_map]
      exact (map_zipIdx_fst (fun entry : CanonAxis × SymExpr => entry.2) _).trans
        (List.map_snd_zip (le_of_eq hlength))
    · show ((((plan.mergedState wrap64).axes.zip
        (plan.canonStrides wrap64)).zipIdx).map _).map _ = _
      rw [List.map_map]
      refine (map_zipIdx_fst (fun entry : CanonAxis × SymExpr => entry.1.extent) _).trans ?_
      rw [← Function.comp_def CanonAxis.extent Prod.fst, ← List.map_map,
        List.map_fst_zip (le_of_eq hlength.symm)]
  rw [haxes.1, haxes.2, PlanAttr.canonStrides, if_pos hfold, dstExtents_bare hpads]

end Flag

/-! ### Axes that look the same from both sides -/

/-- The axis has no pads and one stride for both sides. -/
structure ConcreteAxis.Level (axis : ConcreteAxis) : Prop where
  stride : axis.srcStride = axis.dstStride
  bare : axis.padded = false

theorem Merges.level {run : List ConcreteAxis} {axis : ConcreteAxis} (h : Merges run axis)
    (hrun : ∀ a ∈ run, a.Level) : axis.Level := by
  induction h with
  | single axis => exact hrun axis (List.mem_singleton_self _)
  | merge _ _ hmerge _ ihr =>
      obtain ⟨-, rfl⟩ := mergeAxes_eq_some.mp hmerge
      exact ⟨(ihr fun a ha => hrun a (List.mem_append_right _ ha)).stride, rfl⟩

theorem level_coalesce {axes : List ConcreteAxis} (h : ∀ axis ∈ axes, axis.Level) :
    ∀ entry ∈ coalesce axes, entry.1.Level := by
  obtain ⟨runs, hruns, rfl⟩ := exists_runs axes
  generalize coalesce runs.flatten = merged at hruns
  induction hruns with
  | nil => simp
  | cons hrun _ ih =>
      rw [List.forall_mem_cons]
      exact ⟨hrun.1.level fun a ha => h a (List.mem_append_left _ ha),
        ih fun a ha => h a (List.mem_append_right _ ha)⟩

/-- On a walk without pads the two strides are the same. -/
def WalkAxis.Level (axis : WalkAxis) : Prop :=
  axis.srcStride = axis.dstStride ∧ axis.lo = 0 ∧ axis.hi = 0

theorem ConcreteAxis.Level.walk {axis : ConcreteAxis} (h : axis.Level) (hsound : axis.Sound) :
    axis.walk.Level :=
  ⟨h.stride, hsound.bare h.bare⟩

theorem srcOffset_eq_dstOffset {axes : List WalkAxis} (h : ∀ axis ∈ axes, axis.Level)
    (index : List Int) : srcOffset axes index = dstOffset axes index := by
  induction axes generalizing index with
  | nil => rfl
  | cons axis axes ih =>
      cases index with
      | nil => rfl
      | cons i index =>
          obtain ⟨hstride, hlo, -⟩ := h axis (by simp)
          rw [srcOffset, dstOffset, hstride, hlo, add_zero, ih fun a ha => h a (by simp [ha])]

/-! ### Packed axes -/

/-- The axes of a packed tensor, the innermost one last. -/
def Packed : List WalkAxis → Prop
  | [] => True
  | axis :: rest => axis.Level ∧ axis.dstStride = (rest.map WalkAxis.extent).prod ∧ Packed rest

theorem packed_of_get {axes : List WalkAxis} (h : ∀ (k : Nat) (axis : WalkAxis),
    axes[k]? = some axis → axis.Level ∧
      axis.dstStride = ((axes.map WalkAxis.extent).drop (k + 1)).prod) : Packed axes := by
  induction axes with
  | nil => trivial
  | cons axis axes ih =>
      obtain ⟨hlevel, hstride⟩ := h 0 axis rfl
      exact ⟨hlevel, by simpa using hstride, ih fun k inner hinner => h (k + 1) inner hinner⟩

/-- The walk of a packed tensor counts its cells through. -/
theorem visits_packed {axes : List WalkAxis} (h : Packed axes)
    (hextents : ∀ axis ∈ axes, 1 ≤ axis.extent) (src dst : Int) :
    visits axes src dst =
      (intRange 0 (axes.map WalkAxis.extent).prod).map fun k => (src + k, dst + k) := by
  induction axes generalizing src dst with
  | nil => simp [visits, intRange]
  | cons axis axes ih =>
      obtain ⟨⟨hsrc, hlo, -⟩, hstride, hrest⟩ := h
      rw [List.forall_mem_cons] at hextents
      have hpos : 1 ≤ (axes.map WalkAxis.extent).prod := one_le_prod (by simpa using hextents.2)
      rw [visits, List.map_cons, List.prod_cons, intRange_mul (by omega) (by omega),
        List.map_flatMap]
      congr 1
      funext i
      rw [ih hrest hextents.2, hsrc, hstride, hlo, add_zero, List.map_map]
      congr 1
      funext k
      simp [add_assoc]

/-! ### The view -/

/-- `ViewDescriptor`: the source itself, with a shape. -/
structure ViewDescriptor where
  data : Memory UInt8
  extents : List Int
  strides : List Int
  elementSize : Nat

/-- `executeView`; its two assertions are the condition. -/
def executeView (bound : BoundPlan) (source : Memory UInt8) : Option ViewDescriptor :=
  if bound.noCopy = true ∧ bound.padRegions = [] then
    some { data := source, extents := bound.extents, strides := bound.srcStrides,
           elementSize := bound.elementSize }
  else none

theorem executeView_eq_some {bound : BoundPlan} {source : Memory UInt8} {view : ViewDescriptor} :
    executeView bound source = some view ↔ (bound.noCopy = true ∧ bound.padRegions = []) ∧
      view = { data := source, extents := bound.extents, strides := bound.srcStrides,
               elementSize := bound.elementSize } := by
  unfold executeView
  split
  · rename_i hready
    constructor
    · intro h
      cases h
      exact ⟨hready, rfl⟩
    · rintro ⟨-, rfl⟩
      rfl
  · rename_i hready
    constructor
    · intro h
      cases h
    · intro h
      exact absurd h.1 hready

def ViewDescriptor.axes (view : ViewDescriptor) : List Strides.Axis :=
  (view.extents.zip view.strides).map fun entry => ⟨entry.1, entry.2⟩

/-- A byte position of the view. -/
def ViewDescriptor.Shows (view : ViewDescriptor) (d : Int) : Prop :=
  ∃ (index : List Int) (j : Int), Strides.InBox view.axes index ∧ 0 ≤ j ∧ j < view.elementSize ∧
    d = Strides.offset view.axes index * view.elementSize + j

/-- The result holds the bytes of the view at their positions, and the old bytes elsewhere. -/
def ViewDescriptor.Agrees (view : ViewDescriptor) (memory result : Memory UInt8) : Prop :=
  ∀ d, (view.Shows d → result d = view.data d) ∧ (¬ view.Shows d → result d = memory d)

section Bound

variable {plan : RelocationPlan} {override : Strategy} {axes : List ConcreteAxis}
  {bound : BoundPlan}

theorem strides_of_assembleBound (h : assembleBound plan override axes = .ok bound) :
    bound.noCopy = plan.noCopy ∧ FitsI64 bound.totalBytes ∧
      bound.srcStrides = ((coalesce axes).map Prod.fst).map ConcreteAxis.srcStride := by
  simp only [assembleBound, bind_ok_iff, exists_unit, require_eq_ok, checkedOr_eq_ok, pure_eq,
    Outcome.ok.injEq] at h
  obtain ⟨-, alignments, -, elements, -, _, ⟨hfits, rfl⟩, rfl⟩ := h
  exact ⟨rfl, hfits, rfl⟩

/-- A bound plan whose axes look the same from both sides. -/
structure BoundPlan.Level (bound : BoundPlan) : Prop where
  axes : ∀ axis ∈ bound.walkAxes, axis.Level
  walkable : ∀ axis ∈ bound.walkAxes, 1 ≤ axis.extent ∧ 0 ≤ axis.srcStride
  regions : bound.padRegions = []
  outer : ∃ axis rest, bound.walkAxes = axis :: rest ∧ bound.extents[0]? = some axis.extent
  shape : ∀ source view, executeView bound source = some view →
    view.axes = bound.walkAxes.map WalkAxis.source
  size : 0 < bound.elementSize
  fits : FitsI64 bound.totalBytes
  total : bound.totalBytes = (bound.walkAxes.map WalkAxis.extent).prod * bound.elementSize

theorem level_of_assembleBound (hne : axes ≠ []) (hsound : ∀ axis ∈ axes, axis.Sound)
    (hlevel : ∀ axis ∈ axes, axis.Level) (h : assembleBound plan override axes = .ok bound) :
    bound.Level := by
  have hwalk := walkAxes_of_assembleBound hsound h
  obtain ⟨elements, helements, hsize, htotal, hextents, -, -, -⟩ := assembleBound_eq_ok h
  obtain ⟨-, hfits, hstrides⟩ := strides_of_assembleBound h
  have hcoalesced := coalesce_sound hsound
  have hboth := level_coalesce hlevel
  have haxis : ∀ axis ∈ bound.walkAxes, axis.Level ∧ 1 ≤ axis.extent ∧ 0 ≤ axis.srcStride := by
    intro axis hmem
    rw [hwalk] at hmem
    obtain ⟨entry, hentry, rfl⟩ := List.mem_map.mp hmem
    have hsound' := hcoalesced entry.1 (List.mem_map_of_mem hentry)
    exact ⟨(hboth entry hentry).walk hsound', hsound'.extent, hsound'.src⟩
  refine ⟨fun a ha => (haxis a ha).1, fun a ha => (haxis a ha).2, ?_, ?_, ?_, hsize.1,
    hfits, ?_⟩
  · rw [List.eq_nil_iff_forall_not_mem]
    intro region hregion
    obtain ⟨entry, hentry, hpadded, -⟩ := (mem_padRegions_of_assembleBound h).mp hregion
    have hbare := (hboth entry (List.mem_of_getElem? hentry)).bare
    rw [hbare] at hpadded
    cases hpadded
  · obtain ⟨runs, hruns, hflatten⟩ := exists_runs axes
    cases hmerged : coalesce axes with
    | nil =>
        rw [hmerged] at hruns
        cases hruns
        exact absurd hflatten.symm hne
    | cons entry rest =>
        rw [hmerged] at hwalk hextents
        exact ⟨_, _, hwalk, by rw [hextents]; rfl⟩
  · intro source view hview
    obtain ⟨-, rfl⟩ := executeView_eq_some.mp hview
    rw [ViewDescriptor.axes, hwalk, hextents, hstrides, List.map_map, List.map_map,
      List.zip_map', List.map_map, List.map_map]
    rfl
  · have hcells : ((coalesce axes).map Prod.fst).map ConcreteAxis.cells =
        bound.walkAxes.map WalkAxis.extent := by
      rw [hwalk, List.map_map, List.map_map]
      refine List.map_congr_left fun entry hentry => ?_
      obtain ⟨-, hlo, hhi⟩ := (hboth entry hentry).walk
        (hcoalesced entry.1 (List.mem_map_of_mem hentry))
      have hlo : entry.1.lo = 0 := hlo
      have hhi : entry.1.hi = 0 := hhi
      simp [ConcreteAxis.cells, ConcreteAxis.walk, hlo, hhi]
    rw [htotal, totalElements_eq_ok hcoalesced helements, one_mul, hcells]

end Bound

namespace BoundPlan.Level

variable {bound : BoundPlan} {source memory result : Memory UInt8} {view : ViewDescriptor}
    {d s : Int}

/-- Every copied byte keeps its position, and the positions are those of the view. -/
theorem gathers_iff (h : bound.Level) (hview : executeView bound source = some view)
    {axis : WalkAxis} {axes : List WalkAxis} (haxes : bound.walkAxes = axis :: axes) :
    Gathers bound.elementSize bound.walkAxes 0 axis.extent 0 0 d s ↔ view.Shows d ∧ s = d := by
  have hshape := h.shape source view hview
  have hsize : view.elementSize = bound.elementSize := by
    rw [(executeView_eq_some.mp hview).2]
  have hoffset : ∀ index, Strides.offset view.axes index = dstOffset bound.walkAxes index := by
    intro index
    rw [hshape, ← srcOffset_eq, srcOffset_eq_dstOffset h.axes]
  have hbox : ∀ index, Strides.InBox view.axes index ↔ Valid bound.walkAxes index := by
    intro index
    rw [hshape]
    exact List.forall₂_map_left_iff
  constructor
  · rintro ⟨index, j, hvalid, -, -, hj, hjlt, rfl, rfl⟩
    rw [srcOffset_eq_dstOffset h.axes]
    refine ⟨⟨index, j, (hbox index).mpr hvalid, hj, by omega, ?_⟩, rfl⟩
    rw [hoffset, zero_add, hsize]
  · rintro ⟨⟨index, j, hindex, hj, hjlt, rfl⟩, rfl⟩
    have hvalid := (hbox index).mp hindex
    have hhead := (haxes ▸ hvalid : Valid (axis :: axes) index).head
    refine ⟨index, j, hvalid, hhead.1, hhead.2, hj, by omega, ?_, ?_⟩
    · rw [hoffset, zero_add, hsize]
    · rw [hoffset, zero_add, hsize, srcOffset_eq_dstOffset h.axes]

theorem executeH2D_eq (h : bound.Level) {axis : WalkAxis}
    (houter : bound.extents[0]? = some axis.extent) :
    (executeH2D bound source memory : Outcome Unit _) = (do
      let copies ← gatherChunk bound 0 axis.extent
      pure (runCopies source copies memory)) := by
  have hfetch : (fetch bound.extents 0 : Outcome Unit Int) = .ok axis.extent := by
    rwa [fetch_eq_ok]
  rw [executeH2D, fillDst, h.regions]
  simp only [ok_bind, hfetch]
  rfl

/-- The copying executor and the view show the same bytes at the same positions. -/
theorem agrees (h : bound.Level) (hview : executeView bound source = some view)
    (hrun : (executeH2D bound source memory : Outcome Unit _) = .ok result) :
    view.Agrees memory result := by
  obtain ⟨axis, axes, haxes, houter⟩ := h.outer
  rw [h.executeH2D_eq houter] at hrun
  simp only [bind_ok_iff, pure_eq, Outcome.ok.injEq] at hrun
  obtain ⟨copies, hcopies, rfl⟩ := hrun
  have hpos := (h.walkable axis (by rw [haxes]; simp)).1
  have hmoves : ∀ d s, Moves copies d s ↔ view.Shows d ∧ s = d := by
    intro d s
    rw [moves_gatherChunk h.size (fun a ha => (h.walkable a ha).1) haxes (le_refl 0) (by omega)
      (le_refl _) hcopies, h.gathers_iff hview haxes]
  have hdata : view.data = source := by rw [(executeView_eq_some.mp hview).2]
  intro d
  constructor
  · intro hshows
    rw [hdata]
    refine runCopies_of_moves ?_ ((hmoves d d).mpr ⟨hshows, rfl⟩)
    intro d s s' hs hs'
    rw [((hmoves d s).mp hs).2, ((hmoves d s').mp hs').2]
  · intro hshows
    exact runCopies_of_not_moves fun s hs => hshows ((hmoves d s).mp hs).1

/-- The transposition kernel only takes a level plan of one cell. -/
theorem transposed32 (h : bound.Level) {rows columns : Int}
    (htranspose : bound.transposed32 = some (rows, columns)) : rows = 1 ∧ columns = 1 := by
  obtain ⟨-, -, -, -, haxes⟩ := transposed32_eq_some htranspose
  have hlevel := h.axes
  rw [haxes] at hlevel
  simp [transposeAxes, WalkAxis.Level] at hlevel
  omega

/-! ### Packed plans -/

theorem extent_le (h : bound.Level) {axis : WalkAxis} (hmem : axis ∈ bound.walkAxes) :
    axis.extent ≤ (bound.walkAxes.map WalkAxis.extent).prod := by
  have hforward : Strides.Forward (bound.walkAxes.map WalkAxis.source) := by
    intro source hsource
    obtain ⟨axis, haxis, rfl⟩ := List.mem_map.mp hsource
    exact h.walkable axis haxis
  have hcells : ∀ axes : List WalkAxis, Strides.cells (axes.map WalkAxis.source) =
      (axes.map WalkAxis.extent).prod := by
    intro axes
    induction axes with
    | nil => rfl
    | cons axis axes ih =>
        rw [List.map_cons, List.map_cons, List.prod_cons, Strides.cells, ih]
        rfl
  rw [← hcells]
  exact hforward.extent_le_cells (List.mem_map_of_mem (f := WalkAxis.source) hmem)

theorem valid_last (h : bound.Level) : Valid bound.walkAxes (lastValid bound.walkAxes) := by
  have hwalkable := h.walkable
  generalize bound.walkAxes = axes at hwalkable
  induction axes with
  | nil => exact .nil
  | cons axis axes ih =>
      rw [List.forall_mem_cons] at hwalkable
      exact .cons ⟨sub_nonneg.mpr hwalkable.1.1, sub_one_lt axis.extent⟩ (ih hwalkable.2)

/-- The last copy starts no later than the last cell. -/
theorem lastStart_le {axes : List WalkAxis}
    (h : ∀ axis ∈ axes, 1 ≤ axis.extent ∧ 0 ≤ axis.srcStride) :
    lastStart axes 0 ≤ srcOffset axes (lastValid axes) := by
  induction axes with
  | nil => exact le_refl 0
  | cons axis axes ih =>
      rw [List.forall_mem_cons] at h
      have hhead : 0 ≤ (axis.extent - 1) * axis.srcStride := mul_nonneg (by omega) h.1.2
      cases axes with
      | nil =>
          rw [lastStart]
          simp only [lastValid, List.map_cons, List.map_nil, srcOffset, add_zero]
          split
          · exact hhead
          · exact le_refl _
      | cons next rest =>
          have hrest := ih h.2
          rw [lastStart, lastValid, List.map_cons, srcOffset]
          change _ ≤ _ + srcOffset (next :: rest) (lastValid (next :: rest))
          omega

section Packed

variable {count : Int} (hcells : ∀ cell, cell ∈ visits bound.walkAxes 0 0 ↔
    ∃ k, (0 ≤ k ∧ k < count) ∧ cell = (k, k))
  (hcount : bound.totalBytes = count * bound.elementSize)

include hcells in
theorem offset_packed {index : List Int} (hvalid : Valid bound.walkAxes index) :
    0 ≤ dstOffset bound.walkAxes index ∧ dstOffset bound.walkAxes index < count := by
  have hmem : (0 + srcOffset bound.walkAxes index, 0 + dstOffset bound.walkAxes index) ∈
      visits bound.walkAxes 0 0 := by
    rw [visits_eq_map]
    exact List.mem_map.mpr ⟨index, mem_indices.mpr hvalid, rfl⟩
  obtain ⟨k, hk, hpair⟩ := (hcells _).mp hmem
  simp only [Prod.mk.injEq, zero_add] at hpair
  omega

include hcells hcount

/-- The view shows the whole destination and nothing else. -/
theorem shows_packed (h : bound.Level) (hview : executeView bound source = some view) :
    view.Shows d ↔ 0 ≤ d ∧ d < bound.totalBytes := by
  obtain ⟨axis, axes, haxes, -⟩ := h.outer
  have hgathers := h.gathers_iff (d := d) (s := d) hview haxes
  rw [haxes, gathers_iff_visits, ← haxes] at hgathers
  have hes : (0 : Int) < bound.elementSize := by exact_mod_cast h.size
  rw [hcount]
  constructor
  · intro hshows
    obtain ⟨_, hcell, j, hj, hjlt, hd, -⟩ := hgathers.mpr ⟨hshows, rfl⟩
    obtain ⟨k, hk, rfl⟩ := (hcells _).mp hcell
    dsimp only at hd
    have hlo : 0 ≤ k * bound.elementSize := mul_nonneg hk.1 hes.le
    have hstep := mul_le_mul_of_nonneg_right (Int.add_one_le_of_lt hk.2) hes.le
    rw [add_mul, one_mul] at hstep
    omega
  · rintro ⟨hlo, hhi⟩
    have hdiv := Int.mul_ediv_add_emod d bound.elementSize
    refine (hgathers.mp ⟨(d / bound.elementSize, d / bound.elementSize),
      (hcells _).mpr ⟨d / bound.elementSize, ?_, rfl⟩, d % bound.elementSize,
      Int.emod_nonneg d hes.ne', Int.emod_lt_of_pos d hes, ?_, ?_⟩).1
    · exact ⟨Int.ediv_nonneg hlo hes.le, Int.ediv_lt_of_lt_mul hes hhi⟩
    · dsimp only
      rw [mul_comm, hdiv]
    · dsimp only
      rw [mul_comm, hdiv]

theorem exists_gatherChunk (h : bound.Level) (hes : bound.elementSize < 2 ^ 32) {axis : WalkAxis}
    {axes : List WalkAxis} (haxes : bound.walkAxes = axis :: axes) :
    ∃ copies, (gatherChunk bound 0 axis.extent : Outcome Unit _) = .ok copies := by
  have hbytes : ∀ x : Int, 0 ≤ x → x < count → InBytes bound.elementSize x := by
    intro x hx hlt
    refine ⟨hx, lt_of_le_of_lt (mul_le_mul_of_nonneg_right hlt.le (Int.natCast_nonneg _)) ?_⟩
    rw [← hcount]
    exact h.fits.2
  have hextent := (h.walkable axis (by rw [haxes]; simp)).1
  unfold gatherChunk
  cases htranspose : bound.transposed32 with
  | none =>
      have hwalkable : ∀ axis ∈ bound.walkAxes, axis.Walkable := by
        intro axis hmem
        obtain ⟨hpos, hsrc⟩ := h.walkable axis hmem
        obtain ⟨hlevel, hlo, -⟩ := h.axes axis hmem
        refine ⟨hpos, hlo.ge, hsrc, hlevel ▸ hsrc, ?_⟩
        have hle := h.extent_le hmem
        have htotal := h.total
        have hfits := h.fits
        have hone : (bound.walkAxes.map WalkAxis.extent).prod * 1 ≤
            (bound.walkAxes.map WalkAxis.extent).prod * bound.elementSize :=
          mul_le_mul_of_nonneg_left (by exact_mod_cast h.size) (by omega)
        rw [hlo]
        unfold FitsI64 at hfits ⊢
        omega
      have hlast := offset_packed hcells h.valid_last
      have hstart := lastStart_le h.walkable
      have hstart0 := lastStart_nonneg hwalkable (le_refl 0)
      rw [srcOffset_eq_dstOffset h.axes] at hstart
      rw [haxes] at hwalkable hlast hstart hstart0 ⊢
      refine exists_walk ⟨h.size, hes⟩ hwalkable (le_refl 0) (by omega) (le_refl _) (le_refl 0)
        (le_refl 0) ?_ ?_
      · rw [zero_add]
        exact hbytes _ hstart0 (by omega)
      · rw [zero_add]
        exact hbytes _ hlast.1 hlast.2
  | some shape =>
      obtain ⟨rows, columns⟩ := shape
      obtain ⟨rfl, rfl⟩ := h.transposed32 htranspose
      obtain ⟨-, -, -, -, htaxes⟩ := transposed32_eq_some htranspose
      have hhead : axis.extent = 1 := by
        rw [htaxes] at haxes
        injection haxes with haxis
        exact congrArg WalkAxis.extent haxis.symm
      exact exists_gatherTranspose32 (by decide) (by decide) (le_refl 0) hhead.le (by decide)

theorem exists_executeH2D (h : bound.Level) (hes : bound.elementSize < 2 ^ 32)
    (source memory : Memory UInt8) :
    ∃ result, (executeH2D bound source memory : Outcome Unit _) = .ok result := by
  obtain ⟨axis, axes, haxes, houter⟩ := h.outer
  obtain ⟨copies, hcopies⟩ := exists_gatherChunk hcells hcount h hes haxes
  exact ⟨_, by rw [h.executeH2D_eq houter, hcopies, ok_bind, pure_eq]⟩

end Packed

end BoundPlan.Level

/-! ### Plans with the flag -/

namespace PlanAttr

variable {p : PlanAttr} {map : SymbolMap} {symbols : List Int} {axis : AxisInfoAttr}

theorem mem_symbolTable {expr : SymExpr} (hexpr : expr ∈ p.exprs) :
    ∀ name ∈ expr.symbolNames, name ∈ p.symbolTable :=
  fun _ hname => mem_intern.mpr (.inr (List.mem_flatMap.mpr ⟨expr, hexpr, hname⟩))

theorem mem_exprs (haxis : axis ∈ p.axes) {expr : SymExpr} (hexpr : expr ∈ axis.exprs) :
    expr ∈ p.exprs := by
  rw [exprs]
  exact List.mem_append_right _ (List.mem_append_right _ (List.mem_append_left _
    (List.mem_flatMap.mpr ⟨axis, haxis, hexpr⟩)))

/-- What the axes of a binding are, in the terms of the compiler. -/
theorem evaluates_word (hfields : p.Int64Fields)
    (hsymbols : resolveSymbols p.symbolTable map = .ok symbols) (haxis : axis ∈ p.axes)
    {concrete : ConcreteAxis} (h : concrete.Evaluates symbols (axis.toWire p.symbolTable)) :
    axis.extent.evalWord map.value = some concrete.extent ∧
      axis.srcStride.evalWord map.value = some concrete.srcStride ∧
      axis.dstStride.evalWord map.value = some concrete.dstStride := by
  have heval {expr : SymExpr} (hexpr : expr ∈ axis.exprs) {what : String} {value : Int}
      (hvalue : evalField (expr.toTree p.symbolTable).stream symbols what = .ok value) :
      expr.evalWord map.value = some value :=
    evalWord_of_evalField hsymbols (mem_symbolTable (mem_exprs haxis hexpr))
      (hfields.exprs expr (mem_exprs haxis hexpr)) hvalue
  exact ⟨heval (by simp [AxisInfoAttr.exprs]) h.extent, heval (by simp [AxisInfoAttr.exprs]) h.src,
    heval (by simp [AxisInfoAttr.exprs]) h.dst⟩

/-- The concrete axes of a plan without pads. -/
structure Binds (p : PlanAttr) (map : SymbolMap) (axes : List ConcreteAxis) : Prop where
  ne_nil : axes ≠ []
  sound : ∀ axis ∈ axes, axis.Sound
  length : axes.length = p.axes.length
  each : ∀ (k : Nat) (concrete : ConcreteAxis), axes[k]? = some concrete →
    concrete.padded = false ∧ ∃ axis, p.axes[k]? = some axis ∧
      axis.extent.evalWord map.value = some concrete.extent ∧
      axis.srcStride.evalWord map.value = some concrete.srcStride ∧
      axis.dstStride.evalWord map.value = some concrete.dstStride

theorem binds_of_concreteAxes (hfields : p.Int64Fields) (hpads : p.padFill = [])
    {axes : List ConcreteAxis} (h : concreteAxes p.toWire map = .ok axes) : p.Binds map axes := by
  obtain ⟨symbols, hsymbols, hne, hattached⟩ := concreteAxes_attached h
  refine ⟨hne, concreteAxes_sound h, ?_, fun k concrete hconcrete => ?_⟩
  · rw [hattached.length]
    exact List.length_map _
  · obtain ⟨-, hcarries, source, hsource, hevaluates⟩ := hattached.each k concrete hconcrete
    have hwire : p.toWire.padFill = [] := by
      show p.padFill.map _ = []
      rw [hpads, List.map_nil]
    rw [hwire] at hcarries
    have hget : (p.axes.map (AxisInfoAttr.toWire p.symbolTable))[k]? = some source := hsource
    rw [List.getElem?_map, Option.map_eq_some_iff] at hget
    obtain ⟨axis, haxis, rfl⟩ := hget
    exact ⟨hcarries.1, axis, haxis,
      evaluates_word hfields hsymbols (List.mem_of_getElem? haxis) hevaluates⟩

theorem Binds.level {axes : List ConcreteAxis} (h : p.Binds map axes)
    (hequal : ∀ axis ∈ p.axes, areLogicallyEqual axis.srcStride axis.dstStride = true) :
    ∀ axis ∈ axes, axis.Level := by
  intro concrete hmem
  obtain ⟨k, hk⟩ := List.mem_iff_getElem?.mp hmem
  obtain ⟨hbare, axis, haxis, -, hsrc, hdst⟩ := h.each k concrete hk
  have hsame := areLogicallyEqual_evalWord (σ := map.value)
    (hequal axis (List.mem_of_getElem? haxis))
  rw [hsrc, hdst, Option.some.injEq] at hsame
  exact ⟨hsame, hbare⟩

/-- With derived destination strides the axes are those of a packed tensor. -/
theorem Binds.packed {axes : List ConcreteAxis} (h : p.Binds map axes)
    (hlevel : ∀ axis ∈ axes, axis.Level)
    (hstrides : p.axes.map AxisInfoAttr.dstStride =
      canonicalRowMajorStrides wrap64 (p.axes.map AxisInfoAttr.extent))
    (hfits : FitsI64 (axes.map ConcreteAxis.extent).prod) :
    Packed (axes.map ConcreteAxis.walk) := by
  refine packed_of_get fun k walked hwalked => ?_
  rw [List.getElem?_map, Option.map_eq_some_iff] at hwalked
  obtain ⟨concrete, hconcrete, rfl⟩ := hwalked
  have hmem := List.mem_of_getElem? hconcrete
  refine ⟨(hlevel concrete hmem).walk (h.sound concrete hmem), ?_⟩
  obtain ⟨-, axis, haxis, -, -, hdst⟩ := h.each k concrete hconcrete
  have hextents : List.Forall₂ (fun extent size => extent.evalWord map.value = some size)
      (p.axes.map AxisInfoAttr.extent) (axes.map ConcreteAxis.extent) := by
    rw [List.forall₂_iff_get]
    refine ⟨by rw [List.length_map, List.length_map, h.length], fun j hj hj' => ?_⟩
    rw [List.length_map] at hj hj'
    obtain ⟨-, other, hother, hextent, -⟩ := h.each j axes[j] (List.getElem?_eq_getElem hj')
    obtain ⟨_, rfl⟩ := List.getElem?_eq_some_iff.mp hother
    simpa using hextent
  have hpos : ∀ size ∈ axes.map ConcreteAxis.extent, 1 ≤ size := by
    intro size hsize
    obtain ⟨a, ha, rfl⟩ := List.mem_map.mp hsize
    exact (h.sound a ha).extent
  have hstride : (canonicalRowMajorStrides wrap64 (p.axes.map AxisInfoAttr.extent))[k]? =
      some axis.dstStride := by
    rw [← hstrides, List.getElem?_map, haxis, Option.map_some]
  have hvalue := evalWord_canonicalRowMajorStrides hextents hpos hfits hstride
  rw [hdst, Option.some.injEq] at hvalue
  rw [List.map_map]
  exact hvalue

end PlanAttr

theorem bitwidth_wireElementType (type : MlirType) : (wireElementType type).bitwidth ≤ 64 := by
  unfold wireElementType wireElementType?
  split
  · decide
  · decide
  · decide
  · decide
  · split
    · decide
    · rename_i hwidth
      simpa using hwidth
  · decide
  · decide

/-- A plan with the flag, bound: axes without pads and with one stride for both sides, which the
    walk of the bound plan visits. -/
structure PlanAttr.BindsView (p : PlanAttr) (map : SymbolMap) (axes : List ConcreteAxis)
    (bound : BoundPlan) : Prop where
  binds : p.Binds map axes
  concrete : concreteAxes p.toWire map = .ok axes
  levels : ∀ axis ∈ axes, axis.Level
  level : bound.Level
  flag : bound.noCopy = true
  visited : visits bound.walkAxes 0 0 = visits (axes.map ConcreteAxis.walk) 0 0
  total : bound.totalBytes = (axes.map ConcreteAxis.extent).prod * bound.elementSize
  fits : FitsI64 (axes.map ConcreteAxis.extent).prod
  small : bound.elementSize < 2 ^ 32

theorem PlanAttr.exists_bindsView {plan p : PlanAttr} {map : SymbolMap} {override : Strategy}
    {bound : BoundPlan} (hcanonical : canonicalizePlan wrap64 plan = some p)
    (hfields : p.Int64Fields) (hview : p.noCopy = true)
    (hbind : bind p.toWire map override = .ok bound) : ∃ axes, p.BindsView map axes bound := by
  obtain ⟨hpads, hequal⟩ := noCopy_canonical hcanonical hview
  rw [bind_eq, bind_ok_iff] at hbind
  obtain ⟨axes, haxes, hassemble⟩ := hbind
  have hbinds := binds_of_concreteAxes hfields hpads haxes
  have hlevels := hbinds.level hequal
  have hlevel := level_of_assembleBound hbinds.ne_nil hbinds.sound hlevels hassemble
  obtain ⟨hflag, hfits, -⟩ := strides_of_assembleBound hassemble
  have hcoalesced := coalesced_of_assembleBound hbinds.sound hassemble
  have hcells : axes.map ConcreteAxis.cells = axes.map ConcreteAxis.extent := by
    refine List.map_congr_left fun axis hmem => ?_
    obtain ⟨hlo, hhi⟩ := (hbinds.sound axis hmem).bare (hlevels axis hmem).bare
    rw [ConcreteAxis.cells, hlo, hhi, add_zero, add_zero]
  have hcount := hcoalesced.total
  rw [hcells] at hcount
  refine ⟨axes, hbinds, haxes, hlevels, hlevel, hflag.trans hview, hcoalesced.visits_eq, hcount, ?_,
    ?_⟩
  · have hes : (1 : Int) ≤ bound.elementSize := by exact_mod_cast hlevel.size
    have hpos : 1 ≤ (axes.map ConcreteAxis.extent).prod :=
      one_le_prod (by simpa using fun a ha => (hbinds.sound a ha).extent)
    have hle := mul_le_mul_of_nonneg_left hes (by omega : 0 ≤ (axes.map ConcreteAxis.extent).prod)
    unfold FitsI64 at hfits ⊢
    omega
  · have hwidth : 8 * bound.elementSize ≤ 64 :=
      hcoalesced.size.2.le.trans (bitwidth_wireElementType p.dst.elementType)
    omega

theorem PlanAttr.BindsView.published {p : PlanAttr} {map : SymbolMap} {axes : List ConcreteAxis}
    {bound : BoundPlan} (h : p.BindsView map axes bound) (source : Memory UInt8) :
    ∃ view, executeView bound source = some view :=
  ⟨_, executeView_eq_some.mpr ⟨⟨h.flag, h.level.regions⟩, rfl⟩⟩

/-- With derived destination strides the walk counts the cells through. -/
theorem PlanAttr.BindsView.mem_visits {plan p : PlanAttr} {map : SymbolMap}
    {axes : List ConcreteAxis} {bound : BoundPlan} (h : p.BindsView map axes bound)
    (hcanonical : canonicalizePlan wrap64 plan = some p) (hview : p.noCopy = true)
    (hstrides : plan.dst.strides = []) (hinverse : plan.inverse.isPermutation = true)
    (cell : Int × Int) : cell ∈ visits bound.walkAxes 0 0 ↔
      ∃ k, (0 ≤ k ∧ k < (axes.map ConcreteAxis.extent).prod) ∧ cell = (k, k) := by
  obtain ⟨hpads, -⟩ := noCopy_canonical hcanonical hview
  have hpacked := h.binds.packed h.levels
    (dstStrides_canonical hcanonical hpads hstrides hinverse) h.fits
  have hextents : ∀ axis ∈ axes.map ConcreteAxis.walk, 1 ≤ axis.extent := by
    intro axis hmem
    obtain ⟨concrete, hconcrete, rfl⟩ := List.mem_map.mp hmem
    exact (h.binds.sound concrete hconcrete).extent
  have hprod : ((axes.map ConcreteAxis.walk).map WalkAxis.extent).prod =
      (axes.map ConcreteAxis.extent).prod := by
    rw [List.map_map]
    rfl
  rw [h.visited, visits_packed hpacked hextents, hprod, List.mem_map]
  simp only [mem_intRange, zero_add, eq_comm]

/-- A plan with the flag binds to a view: wherever the copy runs, it leaves the bytes of the
    source at the positions of the view and touches no other byte.  Where the compiler
    derives the destination strides the copy always runs, and the positions are all of the
    destination. -/
theorem PlanAttr.views {plan p : PlanAttr} {map : SymbolMap} {override : Strategy}
    {bound : BoundPlan} (hcanonical : canonicalizePlan wrap64 plan = some p)
    (hfields : p.Int64Fields) (hview : p.noCopy = true)
    (hbind : bind p.toWire map override = .ok bound) (source : Memory UInt8) :
    ∃ view, executeView bound source = some view ∧
      (∀ memory result, (executeH2D bound source memory : Outcome Unit _) = .ok result →
        view.Agrees memory result) ∧
      (plan.dst.strides = [] → plan.inverse.isPermutation = true →
        (∀ memory, ∃ result, (executeH2D bound source memory : Outcome Unit _) = .ok result) ∧
        ∀ d, view.Shows d ↔ 0 ≤ d ∧ d < bound.totalBytes) := by
  obtain ⟨axes, h⟩ := exists_bindsView hcanonical hfields hview hbind
  obtain ⟨view, hsome⟩ := h.published source
  refine ⟨view, hsome, fun memory result hrun => h.level.agrees hsome hrun, ?_⟩
  intro hstrides hinverse
  have hcells := h.mem_visits hcanonical hview hstrides hinverse
  exact ⟨h.level.exists_executeH2D hcells h.total h.small source,
    fun d => h.level.shows_packed hcells h.total hsome⟩

end SymReloc
