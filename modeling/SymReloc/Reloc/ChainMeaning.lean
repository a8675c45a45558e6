import Mathlib.Data.List.Find
import SymReloc.PaddedView
import SymReloc.Reloc.PlanBuilder
import SymReloc.Sym.WordEval

/-!
# What a chain of operations means

Under symbol values each operation of a chain makes one tensor of another, element by element
and in row-major order.  An element is known by where it comes from, an offset of the source or
the fill of a pad, and by the value stages that it has passed, each with the coordinate it had
there.  A plan builder traces a tensor when its axes and pads read the same elements
(`Traces`); folding a transposition, a pad or a value stage keeps that.
-/

namespace SymReloc

open SymExpr RowMajor PaddedView

variable {α : Type}

/-! ### The operations one after the other -/

inductive Origin where
  | source (offset : Int)
  | fill (value : TypedAttr)
deriving DecidableEq, Repr

/-- An element of a tensor of the chain. -/
structure ChainElement (α : Type) where
  origin : Origin
  passed : List (ValueOp α × List Int)

structure Tensor (α : Type) where
  shape : List Int
  element : List Int → ChainElement α

/-- The input of the chain. -/
def Tensor.source (shape : List Int) : Tensor α where
  shape := shape
  element := fun index => ⟨.source (flat shape index), []⟩

instance (shape : List Int) : Decidable (Positive shape) := by unfold Positive; infer_instance

namespace ChainOp

/-- An operation on a tensor: no result where the operation does not apply, an extent is not
    positive, a width is negative or a number does not fit. -/
def apply (σ : Name → Int) (tensor : Tensor α) : ChainOp α → Option (Tensor α)
  | .transpose perm =>
      if perm.Perm (List.range tensor.shape.length) then
        some ⟨select tensor.shape perm, fun index => tensor.element (restore perm index)⟩
      else none
  | .reshape targetShape => do
      let sizes ← targetShape.mapM (evalChecked σ)
      if Positive sizes ∧ sizes.prod = tensor.shape.prod then
        some ⟨sizes, fun index => tensor.element (relayout tensor.shape sizes index)⟩
      else none
  | .pad axis lo hi fill => do
      let size ← tensor.shape[axis.toNat]?
      let below ← lo.evalChecked σ
      let above ← hi.evalChecked σ
      let sizes := tensor.shape.set axis.toNat (below + size + above)
      if 0 ≤ axis ∧ 0 ≤ below ∧ 0 ≤ above ∧ FitsI64 sizes.prod then
        some ⟨sizes, fun index =>
          let i := index.getD axis.toNat 0
          if below ≤ i ∧ i < below + size then tensor.element (index.set axis.toNat (i - below))
          else ⟨.fill fill, []⟩⟩
      else none
  | .value op =>
      some ⟨tensor.shape, fun index =>
        let element := tensor.element index
        { element with passed := element.passed ++ [(op, index)] }⟩

/-- The operations of a chain, one after the other. -/
def run (σ : Name → Int) : List (ChainOp α) → Tensor α → Option (Tensor α)
  | [], tensor => some tensor
  | op :: ops, tensor => (apply σ tensor op).bind (run σ ops)

end ChainOp

/-! ### The view of a plan builder -/

section
variable (σ : Name → Int) (folding : Folding α)

/-- An axis of the plan under symbol values; no stride leads out of a source of `cells`
    elements. -/
structure AxisDenotes (cells : Int) (axis : PlanAxis) (view : ViewAxis) : Prop where
  extent : axis.extent.evalChecked σ = some view.extent
  srcStride : axis.srcStride.evalWord σ = some view.stride
  sound : view.Sound
  one_le_stride : 1 ≤ view.stride
  stride_le : view.stride * view.extent ≤ cells

/-- A pad of the plan under symbol values. -/
def PadDenotes (pad : Option PlanPad) (view : ViewAxis) : Prop :=
  match pad with
  | none => view.Unpadded
  | some pad => pad.lo.evalWord σ = some view.lo ∧ pad.hi.evalWord σ = some view.hi

/-- The constraints of a plan hold. -/
def PlanBuilder.Divisible (plan : PlanBuilder α) : Prop :=
  ∀ constraint ∈ plan.divisibility, ∃ value, constraint.expr.evalChecked σ = some value ∧
    constraint.divisor ∣ value

/-- A fill constant through a list of stages. -/
def Folding.foldThrough (value : TypedAttr) (ops : List (ValueOp α)) : Option TypedAttr :=
  ops.foldlM folding.foldFillThroughStage value

end

/-- What holds of a plan builder between transfer functions. -/
structure PlanBuilder.WellFormed (folding : Folding α) (plan : PlanBuilder α) : Prop where
  pads_lt : ∀ pad ∈ plan.pads, pad.axis < plan.axes.length
  pads_nodup : (plan.pads.map PlanPad.axis).Nodup
  perm : plan.perm.Perm ((List.range plan.axes.length).map fun k : Nat => (k : Int))
  entered : ∀ pad ∈ plan.pads, pad.stage ≤ plan.stages.length
  fused : ∀ pad ∈ plan.pads, folding.foldThrough pad.original
    ((plan.stages.drop pad.stage).map PlanValueStage.op) = some pad.value

/-- Where the plan has the element at an index: in the source, or in a pad whose fill it is. -/
inductive Explains (plan : PlanBuilder α) (view : List ViewAxis) (index : List Int) :
    ChainElement α → Prop where
  | source {passed : List (ValueOp α × List Int)} (hinside : Inside view index)
      (hpassed : passed.map Prod.fst = plan.stages.map PlanValueStage.op) :
      Explains plan view index ⟨.source (offset view index), passed⟩
  | fill {passed : List (ValueOp α × List Int)} {k : Nat} {pad : PlanPad} {axis : ViewAxis}
      {i : Int}
      (hpad : plan.findPad k = some pad) (haxis : view[k]? = some axis) (hi : index[k]? = some i)
      (houtside : ¬ axis.Holds i)
      (hpassed : passed.map Prod.fst = (plan.stages.drop pad.stage).map PlanValueStage.op) :
      Explains plan view index ⟨.fill pad.original, passed⟩

/-- The plan builder reads the elements of a tensor. -/
structure Traces (σ : Name → Int) (folding : Folding α) (cells : Int) (plan : PlanBuilder α)
    (view : List ViewAxis) (tensor : Tensor α) : Prop where
  wellFormed : plan.WellFormed folding
  axes : List.Forall₂ (AxisDenotes σ cells) plan.axes view
  pads : ∀ (k : Nat) axis, view[k]? = some axis → PadDenotes σ (plan.findPad k) axis
  shape_eq : tensor.shape = shape view
  fits : FitsI64 tensor.shape.prod
  elements : ∀ index, InBox tensor.shape index → Explains plan view index (tensor.element index)

variable {σ : Name → Int} {folding : Folding α} {cells : Int} {plan plan' : PlanBuilder α}
  {view : List ViewAxis} {tensor tensor' : Tensor α} {index : List Int}

namespace PlanBuilder

theorem findPad_eq_some {k : Nat} {pad : PlanPad} (h : plan.findPad k = some pad) :
    pad ∈ plan.pads ∧ pad.axis = k := by
  refine ⟨List.mem_of_find?_eq_some h, ?_⟩
  have := List.find?_some h
  simpa using this

theorem findPad_eq_none {k : Nat} : plan.findPad k = none ↔ ∀ pad ∈ plan.pads, pad.axis ≠ k := by
  rw [findPad, List.find?_eq_none]
  simp

/-- With one pad for an axis, the pad of an axis is the one that names it. -/
theorem findPad_iff (h : (plan.pads.map PlanPad.axis).Nodup) {k : Nat} {pad : PlanPad} :
    plan.findPad k = some pad ↔ pad ∈ plan.pads ∧ pad.axis = k := by
  refine ⟨findPad_eq_some, ?_⟩
  rintro ⟨hmem, rfl⟩
  cases hfind : plan.findPad pad.axis with
  | none => exact absurd rfl (findPad_eq_none.mp hfind pad hmem)
  | some other =>
      obtain ⟨hother, haxis⟩ := findPad_eq_some hfind
      rw [List.inj_on_of_nodup_map h hother hmem haxis]

end PlanBuilder

def PlanPad.renumber (f : Nat → Nat) (pad : PlanPad) : PlanPad := { pad with axis := f pad.axis }

/-- Renumbered pads are found at the new numbers. -/
theorem findPad_renumber {f : Nat → Nat} {k : Nat}
    (hpads : plan'.pads = plan.pads.map (PlanPad.renumber f))
    (hf : ∀ pad ∈ plan.pads, f pad.axis = f k → pad.axis = k) :
    plan'.findPad (f k) = (plan.findPad k).map (PlanPad.renumber f) := by
  rw [PlanBuilder.findPad, PlanBuilder.findPad, hpads, List.find?_map]
  congr 1
  refine List.find?_congr fun pad hmem => ?_
  rw [Function.comp_apply, Bool.eq_iff_iff, beq_iff_eq, beq_iff_eq]
  exact ⟨hf pad hmem, fun h => congrArg f h⟩

theorem padDenotes_renumber {pad : Option PlanPad} {axis : ViewAxis} {f : Nat → Nat} :
    PadDenotes σ (pad.map (PlanPad.renumber f)) axis ↔ PadDenotes σ pad axis := by
  cases pad <;> exact Iff.rfl

/-- An element is where it was when the pads, the index and the offset move together. -/
theorem Explains.transfer {view' : List ViewAxis} {index' : List Int} {element : ChainElement α}
    (h : Explains plan view index element)
    (hops : plan'.stages.map PlanValueStage.op = plan.stages.map PlanValueStage.op)
    (hinside : Inside view index → Inside view' index')
    (hoffset : offset view index = offset view' index')
    (hpads : ∀ (k : Nat) pad axis i, plan.findPad k = some pad → view[k]? = some axis →
      index[k]? = some i → ¬ axis.Holds i →
      ∃ (k' : Nat) (pad' : PlanPad) (axis' : ViewAxis) (i' : Int), plan'.findPad k' = some pad' ∧
        view'[k']? = some axis' ∧ index'[k']? = some i' ∧ ¬ axis'.Holds i' ∧
        pad'.original = pad.original ∧ pad'.stage = pad.stage) :
    Explains plan' view' index' element := by
  cases h with
  | source hinside' hpassed =>
      rw [hoffset]
      exact .source (hinside hinside') (hpassed.trans hops.symm)
  | @fill passed k pad axis i hpad haxis hi houtside hpassed =>
      obtain ⟨k', pad', axis', i', hpad', haxis', hi', houtside', horiginal, hstage⟩ :=
        hpads k pad axis i hpad haxis hi houtside
      rw [← horiginal]
      refine .fill hpad' haxis' hi' houtside' ?_
      rw [hpassed, List.map_drop, List.map_drop, hops, hstage]

namespace PlanBuilder

/-- Rewriting the channels leaves the operations of the stages. -/
theorem map_op_replaceChannelDims (dims : List AffineExpr) (stages : List (PlanValueStage α)) :
    (replaceChannelDims folding dims stages).map PlanValueStage.op =
      stages.map PlanValueStage.op := by
  rw [replaceChannelDims, List.map_map]
  rfl

end PlanBuilder

namespace Traces

theorem length_eq (h : Traces σ folding cells plan view tensor) : plan.axes.length = view.length :=
  h.axes.length_eq

theorem sound (h : Traces σ folding cells plan view tensor) : ∀ axis ∈ view, axis.Sound := by
  intro axis hmem
  obtain ⟨k, hlt, rfl⟩ := List.mem_iff_getElem.mp hmem
  exact ((List.forall₂_iff_get.mp h.axes).2 k (h.length_eq ▸ hlt) hlt).sound

theorem positive (h : Traces σ folding cells plan view tensor) : Positive tensor.shape :=
  h.shape_eq ▸ positive_shape h.sound

theorem length_index (h : Traces σ folding cells plan view tensor)
    (hbox : InBox tensor.shape index) :
    view.length = index.length := by
  rw [← length_shape view, ← h.shape_eq]
  exact hbox.length_eq

/-! ### A transposition -/

end Traces

/-- What folding a transposition makes of the plan. -/
theorem PlanBuilder.foldTranspose_eq_some {perm : List Nat}
    (h : plan.foldTranspose folding perm = some plan') :
    plan'.axes = select plan.axes perm ∧ plan'.perm = select plan.perm perm ∧
      plan'.pads = plan.pads.map (PlanPad.renumber fun k => perm.idxOf k) ∧
      (plan'.stages = if plan.tracksChannels then replaceChannelDims folding
        ((List.range plan.axes.length).map fun k => AffineExpr.dim (perm.idxOf k)) plan.stages
        else plan.stages) ∧
      plan'.divisibility = plan.divisibility ∧ plan'.symbolNames = plan.symbolNames := by
  simp only [foldTranspose, Option.bind_eq_bind, Option.bind_eq_some_iff, Option.pure_def,
    Option.some.injEq] at h
  obtain ⟨axes, haxes, places, hplaces, rfl⟩ := h
  exact ⟨mapM_getElem? haxes, mapM_getElem? hplaces, rfl, rfl, rfl, rfl⟩

/-- Channels rewritten or not, the operations of the stages stay. -/
theorem PlanBuilder.map_op_eq {dims : List AffineExpr} {stages : List (PlanValueStage α)}
    {tracked : Bool}
    (h : stages = if tracked then replaceChannelDims folding dims plan.stages else plan.stages) :
    stages.map PlanValueStage.op = plan.stages.map PlanValueStage.op := by
  rw [h]
  split
  · exact map_op_replaceChannelDims _ _
  · rfl

/-- The stages behind one, when only the channels change. -/
theorem PlanBuilder.WellFormed.fused_of_map_op (h : plan.WellFormed folding)
    (hops : plan'.stages.map PlanValueStage.op = plan.stages.map PlanValueStage.op)
    {pad : PlanPad} (hpad : pad ∈ plan.pads) :
    pad.stage ≤ plan'.stages.length ∧ folding.foldThrough pad.original
      ((plan'.stages.drop pad.stage).map PlanValueStage.op) = some pad.value := by
  have hlength := congrArg List.length hops
  rw [List.length_map, List.length_map] at hlength
  rw [hlength, List.map_drop, hops, ← List.map_drop]
  exact ⟨h.entered pad hpad, h.fused pad hpad⟩

/-- A place in a permutation of `range n`. -/
theorem getElem?_idxOf_of_perm {perm : List Nat} {n k : Nat} (h : perm.Perm (List.range n))
    (hk : k < n) : perm[perm.idxOf k]? = some k :=
  List.getElem?_idxOf (h.mem_iff.mpr (List.mem_range.mpr hk))

theorem idxOf_injective_of_perm {perm : List Nat} {n j k : Nat} (h : perm.Perm (List.range n))
    (hj : j < n) (hk : k < n) (heq : perm.idxOf j = perm.idxOf k) : j = k := by
  have hleft := getElem?_idxOf_of_perm h hj
  rw [heq, getElem?_idxOf_of_perm h hk, Option.some.injEq] at hleft
  exact hleft.symm

/-- An old value is found at its number in the permutation. -/
theorem select_idxOf {β : Type} {perm : List Nat} {values : List β} {k : Nat}
    (h : perm.Perm (List.range values.length)) (hk : k < values.length) :
    (select values perm)[perm.idxOf k]? = values[k]? := by
  rw [getElem?_select (mem_lt_of_perm h), getElem?_idxOf_of_perm h hk, Option.bind_some]

theorem PlanBuilder.WellFormed.transpose {perm : List Nat} (h : plan.WellFormed folding)
    (hfold : plan.foldTranspose folding perm = some plan')
    (hperm : perm.Perm (List.range plan.axes.length)) : plan'.WellFormed folding := by
  obtain ⟨haxes, hplaces, hpads, hstages, -, -⟩ := foldTranspose_eq_some hfold
  have hops := map_op_eq hstages
  have hlength : plan'.axes.length = plan.axes.length := by
    rw [haxes, length_select (mem_lt_of_perm hperm), hperm.length_eq, List.length_range]
  have hcount : plan.perm.length = plan.axes.length := by
    rw [h.perm.length_eq, List.length_map, List.length_range]
  constructor
  · rw [hpads, hlength]
    intro pad hpad
    obtain ⟨old, hold, rfl⟩ := List.mem_map.mp hpad
    have hidx := List.idxOf_lt_length_of_mem (hperm.mem_iff.mpr
      (List.mem_range.mpr (h.pads_lt old hold)))
    rwa [hperm.length_eq, List.length_range] at hidx
  · rw [hpads, List.map_map]
    refine List.Nodup.of_map (fun k => perm.getD k 0) ?_
    rw [List.map_map]
    have hback : ∀ pad ∈ plan.pads, ((fun k => perm.getD k 0) ∘ PlanPad.axis ∘
        PlanPad.renumber fun k => perm.idxOf k) pad = pad.axis := by
      intro pad hpad
      show perm.getD (perm.idxOf pad.axis) 0 = pad.axis
      rw [List.getD_eq_getElem?_getD, getElem?_idxOf_of_perm hperm (h.pads_lt pad hpad)]
      rfl
    rw [List.map_congr_left hback]
    exact h.pads_nodup
  · rw [hplaces, hlength]
    exact (select_perm (by rwa [hcount])).trans h.perm
  · rw [hpads]
    intro pad hpad
    obtain ⟨old, hold, rfl⟩ := List.mem_map.mp hpad
    exact (h.fused_of_map_op hops hold).1
  · rw [hpads]
    intro pad hpad
    obtain ⟨old, hold, rfl⟩ := List.mem_map.mp hpad
    exact (h.fused_of_map_op hops hold).2

theorem Traces.transpose {perm : List Nat} (h : Traces σ folding cells plan view tensor)
    (hfold : plan.foldTranspose folding perm = some plan')
    (happly : ChainOp.apply σ tensor (.transpose perm) = some tensor') :
    Traces σ folding cells plan' (select view perm) tensor' := by
  simp only [ChainOp.apply] at happly
  split at happly
  swap
  · cases happly
  rename_i hperm
  cases happly
  have hpermShape := hperm
  rw [h.shape_eq, length_shape] at hperm
  have hpermAxes : perm.Perm (List.range plan.axes.length) := h.length_eq ▸ hperm
  have hsize : perm.length = view.length := by rw [hperm.length_eq, List.length_range]
  obtain ⟨haxes, -, hpads, hstages, -, -⟩ := PlanBuilder.foldTranspose_eq_some hfold
  have hfind : ∀ k, k < view.length → plan'.findPad (perm.idxOf k) =
      (plan.findPad k).map (PlanPad.renumber fun k => perm.idxOf k) := fun k hk =>
    findPad_renumber hpads fun pad hpad => idxOf_injective_of_perm hperm
      (h.length_eq ▸ h.wellFormed.pads_lt pad hpad) hk
  have hbox : ∀ {index}, InBox (select tensor.shape perm) index →
      InBox tensor.shape (restore perm index) ∧ select (restore perm index) perm = index := by
    intro index hindex
    have hcount : index.length = perm.length := by
      rw [← hindex.length_eq, length_select (mem_lt_of_perm hpermShape)]
    have hback := select_restore (hsize ▸ hperm) hcount
    refine ⟨?_, hback⟩
    rw [InBox, ← forall₂_select hpermShape, hback]
    · exact hindex
    · rw [h.shape_eq, length_shape, length_restore, hsize]
  constructor
  · exact h.wellFormed.transpose hfold hpermAxes
  · rw [haxes]
    exact (forall₂_select hpermAxes h.length_eq).mpr h.axes
  · intro k axis hk
    rw [getElem?_select (mem_lt_of_perm hperm), Option.bind_eq_some_iff] at hk
    obtain ⟨old, hold, haxis⟩ := hk
    have hlt := (List.getElem?_eq_some_iff.mp haxis).1
    have hnodup : perm.Nodup := hperm.nodup_iff.mpr List.nodup_range
    have hkOld : perm.idxOf old = k := by
      obtain ⟨hk, rfl⟩ := List.getElem?_eq_some_iff.mp hold
      exact hnodup.idxOf_getElem k hk
    rw [← hkOld, hfind old hlt, padDenotes_renumber]
    exact h.pads old axis haxis
  · rw [h.shape_eq, shape, shape, select, select, List.map_filterMap]
    refine List.filterMap_congr fun k _ => ?_
    rw [List.getElem?_map]
  · rw [(select_perm hpermShape).prod_eq]
    exact h.fits
  · intro index hindex
    obtain ⟨hold, hback⟩ := hbox hindex
    have hcount := h.length_index hold
    refine (h.elements _ hold).transfer (PlanBuilder.map_op_eq hstages) (fun hinside => ?_) ?_ ?_
    · rw [← hback]
      exact (forall₂_select hperm hcount).mpr hinside
    · conv_rhs => rw [← hback]
      exact (offset_select hperm hcount).symm
    · intro k pad axis i hpad haxis hi houtside
      have hk : k < view.length := (List.getElem?_eq_some_iff.mp haxis).1
      refine ⟨perm.idxOf k, pad.renumber fun k => perm.idxOf k, axis, i,
        (hfind k hk).trans (by rw [hpad]; rfl), ?_, ?_, houtside, rfl, rfl⟩
      · rw [select_idxOf hperm hk, haxis]
      · rw [← hback, select_idxOf (hcount ▸ hperm) (hcount ▸ hk), hi]

/-! ### A pad -/

/-- A sum that fits, from the values of its terms. -/
theorem evalWord_add {lhs rhs : SymExpr} {l r : Int} (hl : lhs.evalWord σ = some l)
    (hr : rhs.evalWord σ = some r) (hfits : FitsI64 (l + r)) :
    (PlanBuilder.add lhs rhs).evalWord σ = some (l + r) := by
  have hsum := @getSimplifiedBinaryExpr_evalWord σ .add _ _ _ _ _ hl hr rfl
  rwa [wrap64_of_fits hfits] at hsum

/-- What folding a pad makes of the plan: nothing, a new pad, or a wider one. -/
theorem PlanBuilder.foldPad_eq_ok {axis : Int} {lo hi : SymExpr} {value : TypedAttr}
    (h : plan.foldPad folding axis lo hi value = .ok plan') :
    0 ≤ axis ∧ axis < plan.axes.length ∧
      ((lo = .constant 0 ∧ hi = .constant 0 ∧ plan' = plan) ∨
        (plan'.axes = plan.axes ∧ plan'.perm = plan.perm ∧
          plan'.divisibility = plan.divisibility ∧
          (∃ dims, ∃ tracked : Bool, plan'.stages =
            if tracked then replaceChannelDims folding dims plan.stages else plan.stages) ∧
          ((plan.findPad axis.toNat = none ∧ plan'.pads =
              plan.pads ++ [⟨axis.toNat, lo, hi, value, value, plan.stages.length⟩]) ∨
            ∃ pad, plan.findPad axis.toNat = some pad ∧ pad.value = value ∧
              pad.stage = plan.stages.length ∧ plan'.pads =
                plan.pads.set (plan.pads.findIdx fun pad => pad.axis == axis.toNat)
                  { pad with lo := add pad.lo lo, hi := add pad.hi hi }))) := by
  have hshift : ∀ (plan : PlanBuilder α) (axis : Nat) (lo : SymExpr),
      (shiftChannels folding plan axis lo).axes = plan.axes ∧
        (shiftChannels folding plan axis lo).perm = plan.perm ∧
        (shiftChannels folding plan axis lo).divisibility = plan.divisibility ∧
        (shiftChannels folding plan axis lo).pads = plan.pads ∧
        ∃ dims, ∃ tracked : Bool, (shiftChannels folding plan axis lo).stages =
          if tracked then replaceChannelDims folding dims plan.stages else plan.stages := by
    intro plan axis lo
    unfold shiftChannels
    split
    · exact ⟨rfl, rfl, rfl, rfl, _, true, rfl⟩
    · exact ⟨rfl, rfl, rfl, rfl, [], false, rfl⟩
  unfold foldPad at h
  split at h
  · cases h
  rename_i hrange
  split at h
  · cases h
  split at h
  · rename_i hzero
    cases h
    exact ⟨by omega, by omega, .inl ⟨hzero.1, hzero.2, rfl⟩⟩
  refine ⟨by omega, by omega, .inr ?_⟩
  split at h
  · rename_i hnone
    cases h
    obtain ⟨haxes, hperm, hdiv, hpads, hstages⟩ := hshift
      { plan with
        pads := plan.pads ++ [⟨axis.toNat, lo, hi, value, value, plan.stages.length⟩] }
      axis.toNat lo
    exact ⟨haxes, hperm, hdiv, hstages, .inl ⟨hnone, hpads⟩⟩
  · rename_i pad hsome
    split at h
    · cases h
    rename_i hvalue
    split at h
    · cases h
    rename_i hstage
    cases h
    obtain ⟨haxes, hperm, hdiv, hpads, hstages⟩ := hshift
      { plan with
        pads := plan.pads.set (plan.pads.findIdx fun pad => pad.axis == axis.toNat)
          { pad with lo := add pad.lo lo, hi := add pad.hi hi } }
      axis.toNat lo
    exact ⟨haxes, hperm, hdiv, hstages,
      .inr ⟨pad, hsome, not_not.mp hvalue, not_not.mp hstage, hpads⟩⟩

/-- Setting the first value that passes a test to another that passes it. -/
theorem find?_set_findIdx {β : Type} {p : β → Bool} {values : List β} {value new : β}
    (h : values.find? p = some value) (hnew : p new = true) :
    (values.set (values.findIdx p) new).find? p = some new ∧
      ∀ q : β → Bool, q value = false → q new = false →
        (values.set (values.findIdx p) new).find? q = values.find? q := by
  induction values with
  | nil => cases h
  | cons head values ih =>
      rw [List.find?_cons] at h
      by_cases hhead : p head = true
      · rw [hhead] at h
        cases h
        rw [List.findIdx_cons, hhead, cond_true, List.set_cons_zero]
        refine ⟨by rw [List.find?_cons, hnew], fun q hvalue hq => ?_⟩
        rw [List.find?_cons, List.find?_cons, hvalue, hq]
      · rw [Bool.not_eq_true] at hhead
        rw [hhead] at h
        obtain ⟨hsame, hothers⟩ := ih h
        rw [List.findIdx_cons, hhead, cond_false, List.set_cons_succ]
        refine ⟨by rw [List.find?_cons, hhead, hsame], fun q hvalue hq => ?_⟩
        rw [List.find?_cons, List.find?_cons, hothers q hvalue hq]

/-- The pads after a fold: the one of the axis is new or wider, the others are as they were. -/
theorem findPad_of_set {axis : Nat} {pad new : PlanPad} (hfind : plan.findPad axis = some pad)
    (hpads : plan'.pads = plan.pads.set (plan.pads.findIdx fun pad => pad.axis == axis) new)
    (hnew : new.axis = axis) :
    plan'.findPad axis = some new ∧ ∀ k, k ≠ axis → plan'.findPad k = plan.findPad k := by
  have haxis := (PlanBuilder.findPad_eq_some hfind).2
  obtain ⟨hsame, hothers⟩ :=
    find?_set_findIdx hfind (show (new.axis == axis) = true by simpa using hnew)
  rw [PlanBuilder.findPad, hpads]
  refine ⟨hsame, fun k hk => ?_⟩
  rw [PlanBuilder.findPad, hpads]
  exact hothers _ (by simpa [haxis] using Ne.symm hk) (by simpa [hnew] using Ne.symm hk)

theorem findPad_of_append {axis : Nat} {new : PlanPad} (hfind : plan.findPad axis = none)
    (hnew : new.axis = axis) (hpads : plan'.pads = plan.pads ++ [new]) :
    plan'.findPad axis = some new ∧ ∀ k, k ≠ axis → plan'.findPad k = plan.findPad k := by
  rw [PlanBuilder.findPad] at hfind
  rw [PlanBuilder.findPad, hpads, List.find?_append, hfind, Option.none_or]
  refine ⟨by simp [hnew], fun k hk => ?_⟩
  rw [PlanBuilder.findPad, hpads, List.find?_append, PlanBuilder.findPad]
  have hmiss : [new].find? (fun pad => pad.axis == k) = none := by
    simp [hnew, Ne.symm hk]
  rw [hmiss, Option.or_none]

theorem PlanBuilder.WellFormed.pad {axis : Int} {lo hi : SymExpr} {value : TypedAttr}
    (h : plan.WellFormed folding) (hfold : plan.foldPad folding axis lo hi value = .ok plan') :
    plan'.WellFormed folding := by
  obtain ⟨h0, hlt, ⟨-, -, rfl⟩ | ⟨haxes, hperm, -, ⟨dims, tracked, hstages⟩, hpads⟩⟩ :=
    foldPad_eq_ok hfold
  · exact h
  have hops := map_op_eq hstages
  have hlength := congrArg List.length hops
  rw [List.length_map, List.length_map] at hlength
  have hentered : ∀ pad ∈ plan'.pads, pad.stage ≤ plan'.stages.length ∧
      folding.foldThrough pad.original ((plan'.stages.drop pad.stage).map PlanValueStage.op) =
        some pad.value := by
    rcases hpads with ⟨-, hpads⟩ | ⟨pad, hfind, hvalue, hstage, hpads⟩
    · rw [hpads]
      intro pad hpad
      rcases List.mem_append.mp hpad with hold | hnew
      · exact h.fused_of_map_op hops hold
      · rw [List.mem_singleton] at hnew
        subst hnew
        refine ⟨hlength.ge, ?_⟩
        rw [List.map_drop, hops, ← List.map_drop, List.drop_length]
        rfl
    · rw [hpads]
      intro other hother
      rcases List.mem_or_eq_of_mem_set hother with hold | rfl
      · exact h.fused_of_map_op hops hold
      · have hpad := h.fused_of_map_op hops (findPad_eq_some hfind).1
        exact hpad
  constructor
  · rw [haxes]
    rcases hpads with ⟨-, hpads⟩ | ⟨pad, hfind, -, -, hpads⟩
    · rw [hpads]
      intro pad hpad
      rcases List.mem_append.mp hpad with hold | hnew
      · exact h.pads_lt pad hold
      · rw [List.mem_singleton] at hnew
        subst hnew
        show axis.toNat < _
        omega
    · rw [hpads]
      intro other hother
      rcases List.mem_or_eq_of_mem_set hother with hold | rfl
      · exact h.pads_lt other hold
      · exact h.pads_lt pad (findPad_eq_some hfind).1
  · rcases hpads with ⟨hfind, hpads⟩ | ⟨pad, hfind, -, -, hpads⟩
    · rw [hpads, List.map_append, List.map_singleton]
      refine List.nodup_append.mpr ⟨h.pads_nodup, List.nodup_singleton _, ?_⟩
      intro k hk j hj hkj
      rw [List.mem_singleton] at hj
      obtain ⟨pad, hpad, rfl⟩ := List.mem_map.mp hk
      exact findPad_eq_none.mp hfind pad hpad (hkj.trans hj)
    · rw [hpads, List.map_set]
      have hmem := (findPad_eq_some hfind).1
      have hidx : plan.pads.findIdx (fun pad => pad.axis == axis.toNat) < plan.pads.length :=
        List.findIdx_lt_length_of_exists ⟨pad, hmem, by simp [(findPad_eq_some hfind).2]⟩
      have hself : (plan.pads.map PlanPad.axis).set
          (plan.pads.findIdx fun pad => pad.axis == axis.toNat) pad.axis =
          plan.pads.map PlanPad.axis := by
        have hat := List.findIdx_getElem (w := hidx)
        rw [beq_iff_eq] at hat
        apply List.ext_getElem?
        intro j
        rw [List.getElem?_set]
        split
        · rename_i heq
          subst heq
          rw [List.length_map, if_pos hidx, List.getElem?_map, List.getElem?_eq_getElem hidx,
            Option.map_some, hat, (findPad_eq_some hfind).2]
        · rfl
      rw [show ({ pad with lo := add pad.lo lo, hi := add pad.hi hi } : PlanPad).axis = pad.axis
        from rfl, hself]
      exact h.pads_nodup
  · rw [hperm, haxes]
    exact h.perm
  · exact fun pad hpad => (hentered pad hpad).1
  · exact fun pad hpad => (hentered pad hpad).2

/-- A value of an expression and of its constant. -/
theorem evalChecked_constant {expr : SymExpr} {c value : Int} (h : expr = .constant c)
    (hvalue : expr.evalChecked σ = some value) : value = c := by
  rw [h] at hvalue
  exact (checked64_eq_some.mp hvalue).2

/-- An index with one place moved inside the old size. -/
theorem inBox_set {sizes : List Int} {k : Nat} {size value : Int} {new : Int}
    (hbox : InBox (sizes.set k new) index) (hsize : sizes[k]? = some size) (h0 : 0 ≤ value)
    (hlt : value < size) : InBox sizes (index.set k value) := by
  induction sizes generalizing k index with
  | nil => cases hsize
  | cons head sizes ih =>
      cases k with
      | zero =>
          rw [List.set_cons_zero] at hbox
          rw [List.getElem?_cons_zero, Option.some.injEq] at hsize
          subst hsize
          cases hbox with
          | cons _ htail => exact .cons ⟨h0, hlt⟩ htail
      | succ k =>
          rw [List.set_cons_succ] at hbox
          rw [List.getElem?_cons_succ] at hsize
          cases hbox with
          | cons hhead htail => exact .cons hhead (ih htail hsize)

/-- What the pads of a plan are after a fold along axis `k` that widens it. -/
structure Widened (σ : Name → Int) (plan plan' : PlanBuilder α) (k : Nat) (target : ViewAxis)
    (below above : Int) (value : TypedAttr) : Prop where
  axes : plan'.axes = plan.axes
  ops : plan'.stages.map PlanValueStage.op = plan.stages.map PlanValueStage.op
  others : ∀ j, j ≠ k → plan'.findPad j = plan.findPad j
  denotes : PadDenotes σ (plan'.findPad k) (target.widen below above)
  kept : ∀ pad, plan.findPad k = some pad → ∃ pad', plan'.findPad k = some pad' ∧
    pad'.original = pad.original ∧ pad'.stage = pad.stage
  fresh : (below = 0 ∧ above = 0) ∨ ∃ pad', plan'.findPad k = some pad' ∧ pad'.original = value ∧
    pad'.stage = plan.stages.length

theorem Widened.of_foldPad {axis : Int} {lo hi : SymExpr} {value : TypedAttr} {target : ViewAxis}
    {below above : Int} (hwell : plan.WellFormed folding)
    (hfold : plan.foldPad folding axis lo hi value = .ok plan')
    (hdenotes : PadDenotes σ (plan.findPad axis.toNat) target) (hsound : target.Sound)
    (hbelow : lo.evalChecked σ = some below) (habove : hi.evalChecked σ = some above)
    (hbelow0 : 0 ≤ below) (habove0 : 0 ≤ above)
    (hfits : FitsI64 (target.widen below above).padded) :
    Widened σ plan plan' axis.toNat target below above value := by
  obtain ⟨-, -, ⟨hlo, hhi, rfl⟩ | ⟨haxes, -, -, ⟨dims, tracked, hstages⟩, hpads⟩⟩ :=
    PlanBuilder.foldPad_eq_ok hfold
  · have hzero := evalChecked_constant hlo hbelow
    have hzero' := evalChecked_constant hhi habove
    subst hzero hzero'
    refine ⟨rfl, rfl, fun _ _ => rfl, ?_, fun pad hpad => ⟨pad, hpad, rfl, rfl⟩, .inl ⟨rfl, rfl⟩⟩
    have hsame : target.widen 0 0 = target := by
      unfold ViewAxis.widen
      rw [add_zero, add_zero]
    rwa [hsame]
  have hops := PlanBuilder.map_op_eq hstages
  have hone := hsound.one_le
  have hlo0 := hsound.lo_nonneg
  have hhi0 := hsound.hi_nonneg
  have hsum : FitsI64 (target.lo + below) ∧ FitsI64 (target.hi + above) := by
    unfold ViewAxis.widen ViewAxis.padded at hfits
    unfold FitsI64 at hfits ⊢
    dsimp only at hfits
    omega
  rcases hpads with ⟨hnone, hpads⟩ | ⟨pad, hsome, hvalue, hstage, hpads⟩
  · obtain ⟨hnew, hothers⟩ := findPad_of_append hnone rfl hpads
    rw [hnone] at hdenotes
    refine ⟨haxes, hops, hothers, ?_, fun pad hpad => ?_, .inr ⟨_, hnew, rfl, rfl⟩⟩
    · rw [hnew]
      show lo.evalWord σ = some (target.lo + below) ∧ hi.evalWord σ = some (target.hi + above)
      rw [hdenotes.1, hdenotes.2, zero_add, zero_add]
      exact ⟨evalWord_of_evalChecked hbelow, evalWord_of_evalChecked habove⟩
    · rw [hnone] at hpad
      cases hpad
  · have hfound := PlanBuilder.findPad_eq_some hsome
    obtain ⟨hnew, hothers⟩ := findPad_of_set hsome hpads hfound.2
    rw [hsome] at hdenotes
    refine ⟨haxes, hops, hothers, ?_, fun other hother => ?_, .inr ⟨_, hnew, ?_, hstage⟩⟩
    · rw [hnew]
      exact ⟨evalWord_add hdenotes.1 (evalWord_of_evalChecked hbelow) hsum.1,
        evalWord_add hdenotes.2 (evalWord_of_evalChecked habove) hsum.2⟩
    · rw [hsome] at hother
      cases hother
      exact ⟨_, hnew, rfl, rfl⟩
    · have hfused := hwell.fused pad hfound.1
      rw [hstage, List.drop_length] at hfused
      rw [← hvalue]
      exact Option.some.inj hfused

theorem Traces.pad {axis : Int} {lo hi : SymExpr} {value : TypedAttr}
    (h : Traces σ folding cells plan view tensor)
    (hfold : plan.foldPad folding axis lo hi value = .ok plan')
    (happly : ChainOp.apply σ tensor (.pad axis lo hi value) = some tensor') :
    ∃ view', Traces σ folding cells plan' view' tensor' := by
  simp only [ChainOp.apply, Option.bind_eq_bind, Option.bind_eq_some_iff] at happly
  obtain ⟨size, hsize, below, hbelow, above, habove, happly⟩ := happly
  split at happly
  swap
  · cases happly
  rename_i hguard
  obtain ⟨-, hbelow0, habove0, hfits⟩ := hguard
  cases happly
  obtain ⟨target, htarget, hpadded⟩ : ∃ target, view[axis.toNat]? = some target ∧
      target.padded = size := by
    rw [h.shape_eq, shape, List.getElem?_map, Option.map_eq_some_iff] at hsize
    exact hsize
  have hk := (List.getElem?_eq_some_iff.mp htarget).1
  have hsound := h.sound target (List.mem_of_getElem? htarget)
  have hlo0 := hsound.lo_nonneg
  have hhi0 := hsound.hi_nonneg
  have hwide : (target.widen below above).Sound :=
    ⟨hsound.one_le, add_nonneg hlo0 hbelow0, add_nonneg hhi0 habove0⟩
  have hshape : tensor.shape.set axis.toNat (below + size + above) =
      shape (view.set axis.toNat (target.widen below above)) := by
    rw [h.shape_eq, shape, shape, List.map_set, ← hpadded]
    congr 1
    unfold ViewAxis.widen ViewAxis.padded
    ring
  have hsounds : ∀ other ∈ view.set axis.toNat (target.widen below above), other.Sound := by
    intro other hother
    rcases List.mem_or_eq_of_mem_set hother with hold | rfl
    · exact h.sound other hold
    · exact hwide
  have hfitsAxis : FitsI64 (target.widen below above).padded := by
    have hmem : (target.widen below above).padded ∈
        shape (view.set axis.toNat (target.widen below above)) :=
      List.mem_map_of_mem (List.mem_set hk _)
    have hle := (positive_shape hsounds).le_prod hmem
    have hone := hwide.one_le_padded
    rw [hshape] at hfits
    unfold FitsI64 at hfits ⊢
    omega
  have hwidened := Widened.of_foldPad h.wellFormed hfold (h.pads _ target htarget) hsound hbelow
    habove hbelow0 habove0 hfitsAxis
  refine ⟨view.set axis.toNat (target.widen below above), h.wellFormed.pad hfold, ?_, ?_, hshape,
    hfits, ?_⟩
  · rw [hwidened.axes, List.forall₂_iff_get]
    refine ⟨by rw [List.length_set, h.length_eq], fun j hj hj' => ?_⟩
    rw [List.length_set] at hj'
    have haxis := (List.forall₂_iff_get.mp h.axes).2 j hj hj'
    simp only [List.get_eq_getElem, List.getElem_set] at haxis ⊢
    split
    · rename_i heq
      subst heq
      obtain ⟨_, hget⟩ := List.getElem?_eq_some_iff.mp htarget
      rw [hget] at haxis
      exact ⟨haxis.extent, haxis.srcStride, hwide, haxis.one_le_stride, haxis.stride_le⟩
    · exact haxis
  · intro j other hj
    rw [List.getElem?_set] at hj
    split at hj
    · rename_i heq
      subst heq
      rw [Option.some.injEq] at hj
      exact hj ▸ hwidened.denotes
    · rename_i hne
      rw [hwidened.others j (Ne.symm hne)]
      exact h.pads j other hj
  · intro index hbox
    have hlength : index.length = view.length := by
      rw [← hbox.length_eq, List.length_set, h.shape_eq, length_shape]
    obtain ⟨i, hi⟩ : ∃ i, index[axis.toNat]? = some i :=
      ⟨_, List.getElem?_eq_getElem (by omega)⟩
    have hgetD : index.getD axis.toNat 0 = i := by
      rw [List.getD_eq_getElem?_getD, hi]
      rfl
    dsimp only
    rw [hgetD]
    split
    · rename_i hinner
      have hbox' := inBox_set hbox hsize (show 0 ≤ i - below by omega) (by omega)
      obtain ⟨hinside, hoffset⟩ := PaddedView.widen below above htarget hi
      refine (h.elements _ hbox').transfer hwidened.ops hinside.mpr hoffset.symm ?_
      intro j pad other i' hpad hother hi' houtside
      by_cases hj : j = axis.toNat
      · subst hj
        obtain ⟨pad', hpad', horiginal, hstage⟩ := hwidened.kept pad hpad
        rw [htarget] at hother
        cases hother
        rw [List.getElem?_set_self (by omega), Option.some.injEq] at hi'
        refine ⟨axis.toNat, pad', target.widen below above, i, hpad', ?_, hi, ?_, horiginal, hstage⟩
        · rw [List.getElem?_set_self hk]
        · simp only [ViewAxis.Holds, ViewAxis.widen] at houtside ⊢
          omega
      · rw [List.getElem?_set_ne (Ne.symm hj)] at hi'
        refine ⟨j, pad, other, i', (hwidened.others j hj).trans hpad, ?_, hi', houtside, rfl, rfl⟩
        rw [List.getElem?_set_ne (Ne.symm hj), hother]
    · rename_i houter
      have hrange : 0 ≤ i ∧ i < below + size + above := by
        have hlt : axis.toNat < (tensor.shape.set axis.toNat (below + size + above)).length := by
          rw [List.length_set, h.shape_eq, length_shape]
          exact hk
        obtain ⟨hlt', hget⟩ := List.getElem?_eq_some_iff.mp hi
        have hat := (List.forall₂_iff_get.mp hbox).2 axis.toNat hlt hlt'
        simp only [List.get_eq_getElem, List.getElem_set_self, hget] at hat
        exact hat
      rcases hwidened.fresh with hzero | ⟨pad', hpad', horiginal, hstage⟩
      · exact absurd ⟨by omega, by omega⟩ houter
      · rw [← horiginal]
        refine .fill hpad' (List.getElem?_set_self hk) hi ?_ ?_
        · simp only [ViewAxis.Holds, ViewAxis.widen]
          unfold ViewAxis.padded at hpadded
          omega
        · rw [hstage, List.map_drop, hwidened.ops, ← List.map_drop, List.drop_length]
          rfl

/-! ### A value stage -/

theorem mapM_zip {β : Type} {f : PlanPad → Option β} {pads : List PlanPad} {out : List β}
    (h : pads.mapM f = some out) : List.Forall₂ (fun pad value => f pad = some value) pads out := by
  induction pads generalizing out with
  | nil =>
      cases h
      exact .nil
  | cons pad pads ih =>
      rw [List.mapM_cons] at h
      simp only [Option.bind_eq_bind, Option.bind_eq_some_iff, Option.pure_def,
        Option.some.injEq] at h
      obtain ⟨value, hvalue, rest, hrest, rfl⟩ := h
      exact .cons hvalue (ih hrest)

/-- What folding a value stage makes of the plan: the fills go through the stage. -/
theorem PlanBuilder.foldValueStage_eq_ok {op : ValueOp α}
    (h : plan.foldValueStage folding op = .ok plan') :
    op.shape.length = plan.axes.length ∧
      (∀ axis ∈ op.axis, 0 ≤ axis ∧ axis < plan.axes.length) ∧
      (plan.pads ≠ [] → op.axis = none) ∧
      plan'.axes = plan.axes ∧ plan'.perm = plan.perm ∧ plan'.divisibility = plan.divisibility ∧
      plan'.symbolNames = plan.symbolNames ∧
      plan'.stages = plan.stages ++ [⟨op, op.axis.map fun axis => .dim axis.toNat⟩] ∧
      List.Forall₂ (fun pad pad' : PlanPad =>
        ∃ value, folding.foldFillThroughStage pad.value op = some value ∧
          pad' = { pad with value := value }) plan.pads plan'.pads := by
  unfold foldValueStage at h
  split at h
  · cases h
  rename_i hchain
  split at h
  · cases h
  rename_i hchannel
  split at h
  · cases h
  rename_i hpending
  split at h
  · cases h
  rename_i fused hfused
  cases h
  rw [not_or, not_not, not_not] at hchain
  refine ⟨hchain.2, fun axis haxis => ?_, fun hpads => ?_, rfl, rfl, rfl, rfl, rfl, ?_⟩
  · by_contra hout
    exact hchannel ⟨axis, haxis, by omega⟩
  · by_contra hsome
    exact hpending ⟨hpads, Option.isSome_iff_ne_none.mpr hsome⟩
  · have hall := mapM_zip hfused
    dsimp only
    clear hfused hpending hchannel hchain
    generalize plan.pads = pads at hall
    induction hall with
    | nil => exact .nil
    | cons hvalue _ ih => exact .cons ⟨_, hvalue, rfl⟩ ih

/-- A pad is found as before, its fill one stage further. -/
theorem findPad_of_stage {op : ValueOp α} {pads pads' : List PlanPad}
    (h : List.Forall₂ (fun pad pad' : PlanPad =>
      ∃ value, folding.foldFillThroughStage pad.value op = some value ∧
        pad' = { pad with value := value }) pads pads') (p : PlanPad → Bool)
    (hp : ∀ (pad : PlanPad) value, p { pad with value := value } = p pad) :
    pads'.find? p = none ∧ pads.find? p = none ∨
      ∃ pad value, pads.find? p = some pad ∧
        folding.foldFillThroughStage pad.value op = some value ∧
        pads'.find? p = some { pad with value := value } := by
  induction h with
  | nil => exact .inl ⟨rfl, rfl⟩
  | @cons pad pad' pads pads' hvalue _ ih =>
      obtain ⟨value, hfold, rfl⟩ := hvalue
      rw [List.find?_cons, List.find?_cons, hp]
      cases hpad : p pad with
      | true => exact .inr ⟨pad, value, rfl, hfold, rfl⟩
      | false => exact ih

theorem PlanBuilder.WellFormed.valueStage {op : ValueOp α} (h : plan.WellFormed folding)
    (hfold : plan.foldValueStage folding op = .ok plan') : plan'.WellFormed folding := by
  obtain ⟨-, -, -, haxes, hperm, -, -, hstages, hpads⟩ := foldValueStage_eq_ok hfold
  have hnumbers : plan'.pads.map PlanPad.axis = plan.pads.map PlanPad.axis := by
    clear haxes hperm hstages hfold h
    generalize plan.pads = pads at hpads
    generalize plan'.pads = pads' at hpads
    induction hpads with
    | nil => rfl
    | cons hvalue _ ih =>
        obtain ⟨value, -, rfl⟩ := hvalue
        rw [List.map_cons, List.map_cons, ih]
  have hold : ∀ pad' ∈ plan'.pads, ∃ pad ∈ plan.pads, ∃ value,
      folding.foldFillThroughStage pad.value op = some value ∧
      pad' = { pad with value := value } := by
    intro pad' hpad'
    obtain ⟨k, hk, rfl⟩ := List.mem_iff_getElem.mp hpad'
    have hk' : k < plan.pads.length := hpads.length_eq ▸ hk
    exact ⟨_, List.getElem_mem hk', (List.forall₂_iff_get.mp hpads).2 k hk' hk⟩
  constructor
  · rw [haxes]
    intro pad' hpad'
    obtain ⟨pad, hpad, value, -, rfl⟩ := hold pad' hpad'
    exact h.pads_lt pad hpad
  · rw [hnumbers]
    exact h.pads_nodup
  · rw [hperm, haxes]
    exact h.perm
  · intro pad' hpad'
    obtain ⟨pad, hpad, value, -, rfl⟩ := hold pad' hpad'
    have hstage := h.entered pad hpad
    rw [hstages, List.length_append]
    exact hstage.trans (Nat.le_add_right _ _)
  · intro pad' hpad'
    obtain ⟨pad, hpad, value, hvalue, rfl⟩ := hold pad' hpad'
    have hfused := h.fused pad hpad
    rw [hstages, List.drop_append_of_le_length (h.entered pad hpad), List.map_append,
      Folding.foldThrough, List.foldlM_append]
    rw [Folding.foldThrough] at hfused
    rw [hfused]
    show (folding.foldFillThroughStage pad.value op).bind some = some value
    rw [hvalue]
    rfl

theorem Traces.valueStage {op : ValueOp α} (h : Traces σ folding cells plan view tensor)
    (hfold : plan.foldValueStage folding op = .ok plan')
    (happly : ChainOp.apply σ tensor (.value op) = some tensor') :
    Traces σ folding cells plan' view tensor' := by
  obtain ⟨-, -, -, haxes, -, -, -, hstages, hpads⟩ := PlanBuilder.foldValueStage_eq_ok hfold
  cases happly
  have hfind : ∀ k, plan'.findPad k = none ∧ plan.findPad k = none ∨
      ∃ pad value, plan.findPad k = some pad ∧
        plan'.findPad k = some { pad with value := value } := by
    intro k
    rcases findPad_of_stage hpads (fun pad => pad.axis == k) (fun _ _ => rfl) with
      hnone | ⟨pad, value, hpad, -, hpad'⟩
    · exact .inl hnone
    · exact .inr ⟨pad, value, hpad, hpad'⟩
  refine ⟨h.wellFormed.valueStage hfold, haxes ▸ h.axes, fun k axis haxis => ?_, h.shape_eq, h.fits,
    fun index hbox => ?_⟩
  · have hdenotes := h.pads k axis haxis
    rcases hfind k with ⟨hnone', hnone⟩ | ⟨pad, value, hpad, hpad'⟩
    · rw [hnone']
      rwa [hnone] at hdenotes
    · rw [hpad']
      rwa [hpad] at hdenotes
  · have hold := h.elements index hbox
    dsimp only
    generalize tensor.element index = element at hold ⊢
    cases hold with
    | source hinside hpassed =>
        refine .source hinside ?_
        rw [hstages, List.map_append, List.map_append, hpassed]
        rfl
    | @fill passed k pad axis i hpad haxis hi houtside hpassed =>
        rcases hfind k with ⟨-, hnone⟩ | ⟨pad', value, hpad', hnew⟩
        · rw [hnone] at hpad
          cases hpad
        rw [hpad, Option.some.injEq] at hpad'
        subst hpad'
        have hfill : Explains plan' view index
            ⟨.fill ({ pad with value := value } : PlanPad).original, passed ++ [(op, index)]⟩ := by
          refine .fill hnew haxis hi houtside ?_
          rw [hstages, List.drop_append_of_le_length
            (h.wellFormed.entered pad (PlanBuilder.findPad_eq_some hpad).1), List.map_append,
            List.map_append, hpassed]
          rfl
        exact hfill

/-! ### The identity plan -/

/-- A product that fits, from the values of its factors. -/
theorem evalWord_mul {lhs rhs : SymExpr} {l r : Int} (hl : lhs.evalWord σ = some l)
    (hr : rhs.evalWord σ = some r) (hfits : FitsI64 (l * r)) :
    (PlanBuilder.mul lhs rhs).evalWord σ = some (l * r) := by
  have hproduct := @getSimplifiedBinaryExpr_evalWord σ .mul _ _ _ _ _ hl hr rfl
  rwa [wrap64_of_fits hfits] at hproduct

/-- Sizes under symbol values. -/
def Sizes (σ : Name → Int) : List SymExpr → List Int → Prop :=
  List.Forall₂ fun target size => target.evalChecked σ = some size

/-- Peeling strides off a run of targets makes the axes of a packed tensor. -/
theorem axesDenote_appendSplitAxes {targets : List SymExpr} {sizes : List Int} {srcStride : SymExpr}
    {unit : Int} (h : Sizes σ targets sizes) (hpos : Positive sizes)
    (hstride : srcStride.evalWord σ = some unit) (hunit : 1 ≤ unit)
    (hcells : unit * sizes.prod ≤ cells) (hfits : FitsI64 cells) :
    List.Forall₂ (AxisDenotes σ cells) (PlanBuilder.appendSplitAxes targets srcStride)
        (packed unit sizes) ∧
      (targets.foldr (fun target result =>
        ((⟨[], target, result.2⟩ : PlanAxis) :: result.1, PlanBuilder.mul result.2 target))
        ([], srcStride)).2.evalWord σ = some (unit * sizes.prod) := by
  induction h with
  | nil =>
      rw [List.prod_nil, mul_one]
      exact ⟨.nil, hstride⟩
  | @cons target size targets sizes hsize _ ih =>
      rw [positive_cons] at hpos
      rw [List.prod_cons] at hcells ⊢
      have hrest := hpos.2.one_le_prod
      have hinner : 1 ≤ unit * sizes.prod := one_le_mul_of_one_le_of_one_le hunit hrest
      have hproduct : unit * (size * sizes.prod) = unit * sizes.prod * size := by ring
      have hle : unit * sizes.prod ≤ unit * sizes.prod * size :=
        le_mul_of_one_le_right (by omega) hpos.1
      obtain ⟨haxes, hrunning⟩ := ih hpos.2 (by omega)
      rw [hproduct] at hcells ⊢
      refine ⟨.cons ⟨hsize, hrunning, ⟨hpos.1, le_rfl, le_rfl⟩, hinner, hcells⟩ haxes, ?_⟩
      refine evalWord_mul hrunning (evalWord_of_evalChecked hsize) ?_
      unfold FitsI64 at hfits ⊢
      omega

/-- The names of axes do not matter. -/
theorem axesDenote_rename {axes : List PlanAxis} (name : Nat → Name)
    (h : List.Forall₂ (AxisDenotes σ cells) axes view) (base : Nat) :
    List.Forall₂ (AxisDenotes σ cells)
      ((axes.zipIdx base).map fun entry => { entry.1 with name := name entry.2 }) view := by
  induction h generalizing base with
  | nil => exact .nil
  | cons haxis _ ih =>
      exact .cons ⟨haxis.extent, haxis.srcStride, haxis.sound, haxis.one_le_stride,
        haxis.stride_le⟩ (ih (base + 1))

theorem PlanBuilder.start_axes (input : SymbolicTensorType) :
    (start input : PlanBuilder α).axes =
      ((appendSplitAxes input.shape (.constant 1)).zipIdx.map fun entry =>
        { entry.1 with name := axisName entry.2 }) := by
  have hpeel : ∀ extents : List SymExpr,
      (appendSplitAxes extents (.constant 1)).map (fun axis => (axis.extent, axis.srcStride)) =
          extents.zip (canonicalRowMajorStrides wrap64 extents) ∧
        (extents.foldr (fun target result =>
          ((⟨[], target, result.2⟩ : PlanAxis) :: result.1, mul result.2 target))
          ([], .constant 1)).2 =
        (extents.foldr (fun extent result => (result.2 :: result.1,
          getSimplifiedBinaryExpr wrap64 .mul result.2 extent))
          (([] : List SymExpr), .constant 1)).2 := by
    intro extents
    induction extents with
    | nil => exact ⟨rfl, rfl⟩
    | cons extent extents ih =>
        obtain ⟨haxes, hrunning⟩ := ih
        constructor
        · show (extent, _) :: _ = (extent, _) :: _
          rw [List.cons.injEq]
          exact ⟨by rw [hrunning], haxes⟩
        · exact congrArg (fun running => getSimplifiedBinaryExpr wrap64 .mul running extent)
            hrunning
  show ((input.shape.zip _).zipIdx.map _) = _
  rw [← (hpeel input.shape).1, List.zipIdx_map, List.map_map]
  rfl

/-- The identity plan reads the input. -/
theorem Traces.start {input : SymbolicTensorType} {sizes : List Int}
    (h : Sizes σ input.shape sizes) (hpos : Positive sizes) (hfits : FitsI64 sizes.prod) :
    Traces σ folding sizes.prod (PlanBuilder.start input) (packed 1 sizes)
      (Tensor.source sizes) := by
  have hunit : (SymExpr.constant 1).evalWord σ = some 1 := rfl
  have haxes := (axesDenote_appendSplitAxes h hpos hunit le_rfl (one_mul _).le hfits).1
  have hlength : (PlanBuilder.start input : PlanBuilder α).axes.length = input.shape.length := by
    show ((input.shape.zip _).zipIdx.map _).length = _
    rw [List.length_map, List.length_zipIdx, List.length_zip, length_canonicalRowMajorStrides,
      min_self]
  have hpads : ∀ pad, pad ∉ (PlanBuilder.start input : PlanBuilder α).pads := fun _ =>
    List.not_mem_nil
  refine ⟨⟨fun pad hpad => absurd hpad (hpads pad), List.nodup_nil, ?_,
    fun pad hpad => absurd hpad (hpads pad), fun pad hpad => absurd hpad (hpads pad)⟩, ?_,
    fun k axis haxis => ?_, (shape_packed 1 sizes).symm, hfits, fun index hbox => ?_⟩
  · rw [hlength]
    rfl
  · rw [PlanBuilder.start_axes]
    exact axesDenote_rename axisName haxes 0
  · exact unpadded_packed axis (List.mem_of_getElem? haxis)
  · have hread : offset (packed 1 sizes) index = 1 * flat sizes index := offset_packed hbox
    rw [one_mul] at hread
    have hinside : Inside (packed 1 sizes) index :=
      inside_of_unpadded unpadded_packed (by rwa [shape_packed])
    show Explains _ _ _ ⟨.source (flat sizes index), []⟩
    rw [← hread]
    exact .source hinside rfl

end SymReloc
