import SymReloc.Reloc.FoldReshape
import SymReloc.Reloc.Meaning
import SymReloc.WalkIndex

/-!
# A folded chain means what the chain means

Folding the operations of a chain one after the other keeps the tensor that the plan builder
traces (`Traces.foldChain`).  The final plan walks the destination in row-major order; at each
index its cell has the element that the operations, one after the other, put there
(`foldChain_sound`), and the canonical plan means the same (`foldChain_canonical_sound`).  A
chain with a meaning under some symbol values always has a final plan that verifies
(`exists_finalize`).
-/

namespace SymReloc

open SymExpr RowMajor PaddedView

variable {α : Type} {σ : Name → Int} {folding : Folding α} {cells : Int}
  {plan plan' : PlanBuilder α} {view : List ViewAxis} {tensor tensor' : Tensor α} {op : ChainOp α}
  {ops : List (ChainOp α)} {input : SymbolicTensorType} {sizes : List Int}

/-! ### One operation -/

theorem getD_map_ok {β : Type} {found : Option β} {text : String} {value : β} :
    (found.map Except.ok).getD (.error text) = .ok value ↔ found = some value := by
  cases found with
  | none => exact iff_of_false (fun h => by cases h) (fun h => by cases h)
  | some other =>
      rw [Option.map_some, Option.getD_some, Option.some.injEq, Except.ok.injEq]

/-- Folding an operation follows the tensor, where the constraints hold that are met. -/
theorem Traces.foldChainOp (h : Traces σ folding cells plan view tensor) (hcells : FitsI64 cells)
    (hone : 1 ≤ cells) (hfold : plan.foldChainOp folding op = .ok plan')
    (hdivides : plan'.Divisible σ) (happly : ChainOp.apply σ tensor op = some tensor') :
    ∃ view', Traces σ folding cells plan' view' tensor' := by
  cases op with
  | transpose perm => exact ⟨_, h.transpose (getD_map_ok.mp hfold) happly⟩
  | reshape targetShape => exact h.reshape hcells hone (getD_map_ok.mp hfold) hdivides happly
  | pad axis lo hi value => exact h.pad hfold happly
  | value op => exact ⟨view, h.valueStage hfold happly⟩

/-- What no operation changes, only adds to, or takes from a value stage. -/
theorem PlanBuilder.foldChainOp_keeps (hfold : plan.foldChainOp folding op = .ok plan') :
    plan'.src = plan.src ∧ plan.divisibility ⊆ plan'.divisibility ∧
      (plan'.elementType = plan.elementType ∨
        ∃ stage, op = .value stage ∧ plan'.elementType = stage.outputType) := by
  cases op with
  | transpose perm =>
      have htranspose := getD_map_ok.mp hfold
      simp only [foldTranspose, Option.bind_eq_bind, Option.bind_eq_some_iff, Option.pure_def,
        Option.some.injEq] at htranspose
      obtain ⟨axes, -, places, -, rfl⟩ := htranspose
      exact ⟨rfl, List.Subset.refl _, .inl rfl⟩
  | reshape targetShape =>
      have hreshape := getD_map_ok.mp hfold
      unfold foldReshape at hreshape
      split at hreshape
      · cases hreshape
      dsimp only at hreshape
      split at hreshape
      · cases hreshape
      simp only [Option.bind_eq_bind, Option.bind_eq_some_iff, Option.pure_def,
        Option.some.injEq] at hreshape
      obtain ⟨pads, -, rfl⟩ := hreshape
      exact ⟨rfl, List.subset_append_left _ _, .inl rfl⟩
  | pad axis lo hi value =>
      have hshift : ∀ (plan : PlanBuilder α) (axis : Nat) (lo : SymExpr),
          (shiftChannels folding plan axis lo).src = plan.src ∧
            plan.divisibility ⊆ (shiftChannels folding plan axis lo).divisibility ∧
            (shiftChannels folding plan axis lo).elementType = plan.elementType := by
        intro plan axis lo
        unfold shiftChannels
        split <;> exact ⟨rfl, List.Subset.refl _, rfl⟩
      have hpad : plan.foldPad folding axis lo hi value = .ok plan' := hfold
      unfold foldPad at hpad
      split at hpad
      · cases hpad
      split at hpad
      · cases hpad
      split at hpad
      · cases hpad
        exact ⟨rfl, List.Subset.refl _, .inl rfl⟩
      split at hpad
      · cases hpad
        obtain ⟨hsrc, hdivisibility, htype⟩ := hshift
          { plan with
            pads := plan.pads ++ [⟨axis.toNat, lo, hi, value, value, plan.stages.length⟩] }
          axis.toNat lo
        exact ⟨hsrc, hdivisibility, .inl htype⟩
      · rename_i pad _
        split at hpad
        · cases hpad
        split at hpad
        · cases hpad
        cases hpad
        obtain ⟨hsrc, hdivisibility, htype⟩ := hshift
          { plan with
            pads := plan.pads.set (plan.pads.findIdx fun pad => pad.axis == axis.toNat)
              { pad with lo := add pad.lo lo, hi := add pad.hi hi } }
          axis.toNat lo
        exact ⟨hsrc, hdivisibility, .inl htype⟩
  | value stage =>
      have hvalue : plan.foldValueStage folding stage = .ok plan' := hfold
      unfold foldValueStage at hvalue
      split at hvalue
      · cases hvalue
      split at hvalue
      · cases hvalue
      split at hvalue
      · cases hvalue
      split at hvalue
      · cases hvalue
      · cases hvalue
        exact ⟨rfl, List.Subset.refl _, .inr ⟨stage, rfl, rfl⟩⟩

/-! ### A chain -/

/-- The element type that an operation makes, if it makes another. -/
def ChainOp.outputType : ChainOp α → Option MlirType
  | .value stage => some stage.outputType
  | _ => none

/-- Every value stage of the chain makes elements of a tensor. -/
def ChainOp.Typed (ops : List (ChainOp α)) : Prop :=
  ∀ op ∈ ops, ∀ type ∈ op.outputType, type.IsTensorElement

instance (ops : List (ChainOp α)) : Decidable (ChainOp.Typed ops) := by
  unfold ChainOp.Typed
  infer_instance

theorem PlanBuilder.foldChain_keeps (hfold : foldChain folding ops plan = .ok plan') :
    plan'.src = plan.src ∧ plan.divisibility ⊆ plan'.divisibility ∧
      (ChainOp.Typed ops → plan.elementType.IsTensorElement →
        plan'.elementType.IsTensorElement) := by
  induction ops generalizing plan with
  | nil =>
      cases hfold
      exact ⟨rfl, List.Subset.refl _, fun _ helement => helement⟩
  | cons op ops ih =>
      rw [foldChain, except_bind_eq_ok] at hfold
      obtain ⟨mid, hop, hrest⟩ := hfold
      obtain ⟨hsrc, hsubset, htype⟩ := foldChainOp_keeps hop
      obtain ⟨hsrc', hsubset', htype'⟩ := ih hrest
      refine ⟨hsrc'.trans hsrc, List.Subset.trans hsubset hsubset', fun htyped helement => ?_⟩
      rw [ChainOp.Typed, List.forall_mem_cons] at htyped
      refine htype' htyped.2 ?_
      rcases htype with hsame | ⟨stage, rfl, hstage⟩
      · rwa [hsame]
      · rw [hstage]
        exact htyped.1 _ rfl

theorem Traces.foldChain (h : Traces σ folding cells plan view tensor) (hcells : FitsI64 cells)
    (hone : 1 ≤ cells) (hfold : PlanBuilder.foldChain folding ops plan = .ok plan')
    (hdivides : plan'.Divisible σ) (hrun : ChainOp.run σ ops tensor = some tensor') :
    ∃ view', Traces σ folding cells plan' view' tensor' := by
  induction ops generalizing plan view tensor with
  | nil =>
      cases hfold
      cases hrun
      exact ⟨view, h⟩
  | cons op ops ih =>
      rw [PlanBuilder.foldChain, except_bind_eq_ok] at hfold
      obtain ⟨mid, hop, hrest⟩ := hfold
      rw [ChainOp.run, Option.bind_eq_some_iff] at hrun
      obtain ⟨midTensor, happly, hrun⟩ := hrun
      have hmid : mid.Divisible σ := fun constraint hmem =>
        hdivides constraint ((PlanBuilder.foldChain_keeps hrest).2.1 hmem)
      obtain ⟨midView, hmidTraces⟩ := h.foldChainOp hcells hone hop hmid happly
      exact ih hmidTraces hrest hrun

/-- A chain folded from its input, under symbol values where it has a meaning. -/
theorem Traces.of_chain
    (hfold : PlanBuilder.foldChain folding ops (PlanBuilder.start input) = .ok plan)
    (hsizes : input.shape.mapM (evalChecked σ) = some sizes) (hpos : Positive sizes)
    (hfits : FitsI64 sizes.prod)
    (hrun : ChainOp.run σ ops (Tensor.source sizes) = some tensor) (hdivides : plan.Divisible σ) :
    ∃ view, Traces σ folding sizes.prod plan view tensor :=
  (Traces.start (sizes_of_mapM hsizes) hpos hfits).foldChain hfits hpos.one_le_prod hfold hdivides
    hrun

/-! ### The final plan -/

section
variable {final : PlanAttr} {inverse : AffineMap} {helement : plan.elementType.IsTensorElement}
  {layout : Walk.Layout TypedAttr}

theorem PlanBuilder.finalize_eq_some (h : plan.finalize = some final) :
    ∃ inverse helement, permutationInverse plan.perm = some inverse ∧
      final = plan.finalPlan inverse helement := by
  unfold finalize at h
  split at h
  · rename_i helement
    simp only [Option.bind_eq_bind, Option.bind_eq_some_iff] at h
    obtain ⟨inverse, hinverse, h⟩ := h
    split at h
    · cases h
      exact ⟨inverse, helement, hinverse, rfl⟩
    · cases h
  · cases h

/-- With one pad for an axis the last one that names it is the first. -/
theorem getLast?_filter_of_nodup {pads : List PlanPad} (h : (pads.map PlanPad.axis).Nodup)
    (k : Nat) :
    (pads.filter fun pad => pad.axis == k).getLast? = pads.find? fun pad => pad.axis == k := by
  induction pads with
  | nil => rfl
  | cons pad pads ih =>
      rw [List.map_cons, List.nodup_cons] at h
      by_cases hpad : pad.axis = k
      · have hnone : (pads.filter fun pad => pad.axis == k) = [] := by
          rw [List.filter_eq_nil_iff]
          intro other hother hsame
          rw [beq_iff_eq] at hsame
          exact h.1 (List.mem_map.mpr ⟨other, hother, hsame.trans hpad.symm⟩)
        rw [List.filter_cons_of_pos (by simpa using hpad), hnone,
          List.find?_cons_of_pos (by simpa using hpad)]
        rfl
      · rw [List.filter_cons_of_neg (by simpa using hpad), ih h.2,
          List.find?_cons_of_neg (by simpa using hpad)]

/-- An axis of the final plan: that of the builder, with its row-major stride. -/
theorem getElem?_finalPlan_axes {k : Nat} {info : AxisInfoAttr} :
    (plan.finalPlan inverse helement).axes[k]? = some info ↔
      ∃ axis stride, plan.axes[k]? = some axis ∧
        (canonicalRowMajorStrides wrap64 plan.dstExtents)[k]? = some stride ∧
        info = ⟨axis.name, axis.extent, axis.srcStride, stride⟩ := by
  show ((plan.axes.zip (canonicalRowMajorStrides wrap64 plan.dstExtents)).map fun entry =>
    (⟨entry.1.name, entry.1.extent, entry.1.srcStride, entry.2⟩ : AxisInfoAttr))[k]? = _ ↔ _
  rw [List.getElem?_map, Option.map_eq_some_iff]
  constructor
  · rintro ⟨pair, hpair, rfl⟩
    have hboth := List.getElem?_zip_eq_some.mp hpair
    exact ⟨pair.1, pair.2, hboth.1, hboth.2, rfl⟩
  · rintro ⟨axis, stride, haxis, hstride, rfl⟩
    exact ⟨(axis, stride), List.getElem?_zip_eq_some.mpr ⟨haxis, hstride⟩, rfl⟩

theorem padAt_finalPlan (h : (plan.pads.map PlanPad.axis).Nodup) (k : Nat) :
    padAt (plan.finalPlan inverse helement).padFill k =
      (plan.findPad k).map fun pad => ⟨pad.axis, pad.lo, pad.hi, pad.value⟩ := by
  show ((plan.pads.map _).filter _).getLast? = _
  rw [List.filter_map, List.getLast?_map, PlanBuilder.findPad, ← getLast?_filter_of_nodup h]
  rfl

theorem getElem?_strides (unit : Int) (sizes : List Int) (k : Nat) :
    (strides unit sizes)[k]? = if k < sizes.length then some (unit * (sizes.drop (k + 1)).prod)
      else none := by
  induction sizes generalizing k with
  | nil => rfl
  | cons size sizes ih =>
      cases k with
      | zero => simp [strides]
      | succ k =>
          rw [strides, List.getElem?_cons_succ, ih, List.length_cons]
          simp

/-- The destination extents have the padded sizes. -/
theorem Traces.words_dstExtents (h : Traces σ folding cells plan view tensor) :
    Words σ plan.dstExtents (shape view) :=
  words_padded h.entries (positive_shape h.sound) (h.shape_eq ▸ h.fits)

theorem Traces.length_dstExtents (h : Traces σ folding cells plan view tensor) :
    plan.dstExtents.length = plan.axes.length := by
  rw [h.words_dstExtents.length_eq, length_shape, h.length_eq]

theorem Traces.length_finalPlan_axes (h : Traces σ folding cells plan view tensor) :
    (plan.finalPlan inverse helement).axes.length = plan.axes.length := by
  show ((plan.axes.zip (canonicalRowMajorStrides wrap64 plan.dstExtents)).map _).length = _
  rw [List.length_map, List.length_zip, length_canonicalRowMajorStrides, h.length_dstExtents,
    min_self]

/-- An axis of the final plan, where it evaluates. -/
theorem Traces.evalAxis_finalPlan (h : Traces σ folding cells plan view tensor) {k : Nat}
    {axis : PlanAxis} {stride : SymExpr} {value : Walk.Axis TypedAttr}
    (haxis : plan.axes[k]? = some axis)
    (hstride : (canonicalRowMajorStrides wrap64 plan.dstExtents)[k]? = some stride)
    (heval : evalAxis (evalChecked σ) (plan.finalPlan inverse helement).padFill k
      ⟨axis.extent, axis.srcStride, stride⟩ = some value) :
    view[k]? = some value.view ∧ value.dstStride = ((shape view).drop (k + 1)).prod ∧
      value.pad.map Walk.Pad.value = (plan.findPad k).map PlanPad.value := by
  obtain ⟨hextent, hsrc, hdst, hpad⟩ := evalAxis_eq_some.mp heval
  obtain ⟨hk, rfl⟩ := List.getElem?_eq_some_iff.mp haxis
  have hk' : k < view.length := h.length_eq ▸ hk
  have hdenotes : AxisDenotes σ cells plan.axes[k] view[k] :=
    (List.forall₂_iff_get.mp h.axes).2 k hk hk'
  have hpads := h.pads k _ (List.getElem?_eq_getElem hk')
  have hword := evalWord_canonicalRowMajorStrides h.words_dstExtents (positive_shape h.sound)
    (h.shape_eq ▸ h.fits) hstride
  rw [evalWord_of_evalChecked hdst, Option.some.injEq] at hword
  have hextentEq : value.extent = view[k].extent := by
    have hboth := hdenotes.extent
    rw [hextent] at hboth
    exact Option.some.inj hboth
  have hstrideEq : value.srcStride = view[k].stride := by
    have hboth := hdenotes.srcStride
    rw [evalWord_of_evalChecked hsrc] at hboth
    exact Option.some.inj hboth
  rw [padAt_finalPlan h.wellFormed.pads_nodup] at hpad
  rw [List.getElem?_eq_getElem hk']
  unfold Walk.Axis.view
  cases hfound : plan.findPad k with
  | none =>
      rw [hfound] at hpad hpads
      have hnone : value.pad = none := by
        cases hvalue : value.pad with
        | none => rfl
        | some pad =>
            rw [hvalue] at hpad
            cases hpad
      rw [hnone, hextentEq, hstrideEq]
      refine ⟨congrArg some ?_, hword, rfl⟩
      obtain ⟨hlo, hhi⟩ := hpads
      calc view[k] = ⟨view[k].extent, view[k].stride, view[k].lo, view[k].hi⟩ := rfl
        _ = ⟨view[k].extent, view[k].stride, 0, 0⟩ := by rw [hlo, hhi]
  | some pad =>
      rw [hfound, Option.map_some, Option.map_some] at hpad
      rw [hfound] at hpads
      cases hvalue : value.pad with
      | none =>
          rw [hvalue] at hpad
          cases hpad
      | some other =>
          rw [hvalue, Option.map_some, Option.some.injEq] at hpad
          obtain ⟨hlo, hhi, hfill⟩ := evalPad_eq_some.mp hpad
          have hloEq : other.lo = view[k].lo := by
            have hboth := hpads.1
            rw [evalWord_of_evalChecked hlo] at hboth
            exact Option.some.inj hboth
          have hhiEq : other.hi = view[k].hi := by
            have hboth := hpads.2
            rw [evalWord_of_evalChecked hhi] at hboth
            exact Option.some.inj hboth
          refine ⟨congrArg some ?_, hword, congrArg some hfill.symm⟩
          dsimp only
          rw [hextentEq, hstrideEq, hloEq, hhiEq]

/-- Where the final plan evaluates its axes are those of the view, with the strides of a packed
    destination. -/
theorem Traces.evaluate (h : Traces σ folding cells plan view tensor)
    (heval : (plan.finalPlan inverse helement).evaluate σ = some layout) :
    layout.axes.map Walk.Axis.view = view ∧
      layout.axes.map Walk.Axis.dstStride = strides 1 (shape view) ∧
      ∀ (k : Nat) axis, layout.axes[k]? = some axis →
        axis.pad.map Walk.Pad.value = (plan.findPad k).map PlanPad.value := by
  obtain ⟨-, -, haxes, -⟩ := PlanAttr.evaluate_eq_some.mp heval
  obtain ⟨hlength, haxes⟩ := evalAxes_eq_some.mp haxes
  have hcount : layout.axes.length = view.length := by
    rw [hlength, List.length_map, h.length_finalPlan_axes, h.length_eq]
  have hat : ∀ (k : Nat) value, layout.axes[k]? = some value → view[k]? = some value.view ∧
      value.dstStride = ((shape view).drop (k + 1)).prod ∧
      value.pad.map Walk.Pad.value = (plan.findPad k).map PlanPad.value := by
    intro k value hvalue
    have hk : k < (plan.finalPlan inverse helement).axes.length := by
      rw [h.length_finalPlan_axes, h.length_eq, ← hcount]
      exact (List.getElem?_eq_some_iff.mp hvalue).1
    obtain ⟨axis, stride, haxis, hstride, hinfo⟩ :=
      getElem?_finalPlan_axes.mp (List.getElem?_eq_getElem hk)
    have hcanon : ((plan.finalPlan inverse helement).axes.map AxisInfoAttr.canon)[k]? =
        some ⟨axis.extent, axis.srcStride, stride⟩ := by
      rw [List.getElem?_map, List.getElem?_eq_getElem hk, hinfo]
      rfl
    obtain ⟨value', hvalue', heval'⟩ := haxes k _ hcanon
    rw [hvalue, Option.some.injEq] at hvalue'
    subst hvalue'
    rw [Nat.zero_add] at heval'
    exact h.evalAxis_finalPlan haxis hstride heval'
  refine ⟨List.ext_getElem? fun k => ?_, List.ext_getElem? fun k => ?_,
    fun k axis haxis => (hat k axis haxis).2.2⟩
  · rw [List.getElem?_map]
    cases hvalue : layout.axes[k]? with
    | none =>
        rw [List.getElem?_eq_none_iff, hcount] at hvalue
        rw [List.getElem?_eq_none hvalue]
        rfl
    | some value => exact (hat k value hvalue).1.symm
  · rw [List.getElem?_map, getElem?_strides, length_shape, ← hcount]
    cases hvalue : layout.axes[k]? with
    | none =>
        rw [List.getElem?_eq_none_iff] at hvalue
        rw [if_neg (by omega)]
        rfl
    | some value =>
        rw [if_pos (List.getElem?_eq_some_iff.mp hvalue).1, one_mul]
        exact congrArg some (hat k value hvalue).2.1

/-! ### The cells of the final plan -/

/-- The cell of a plan has an element: it reads the element's place in the source, or it lies in a
    pad whose fill is the element's, each through the value stages that the element has passed. -/
def Walk.Cell.Carries (folding : Folding α) (plan : PlanBuilder α) (cell : Walk.Cell TypedAttr)
    (element : ChainElement α) : Prop :=
  match element.origin with
  | .source offset => cell.fills = [] ∧ cell.src = offset ∧
      element.passed.map Prod.fst = plan.stages.map PlanValueStage.op
  | .fill value => ∃ fused ∈ cell.fills,
      folding.foldThrough value (element.passed.map Prod.fst) = some fused

/-- At every index the cell of the final plan has the element of the tensor. -/
theorem Traces.cell (h : Traces σ folding cells plan view tensor)
    (heval : (plan.finalPlan inverse helement).evaluate σ = some layout) {index : List Int}
    (hbox : InBox tensor.shape index) :
    ∃ cell, (Walk.walk layout.axes)[(flat tensor.shape index).toNat]? = some cell ∧
      cell.dst = flat tensor.shape index ∧ cell.Carries folding plan (tensor.element index) := by
  obtain ⟨hview, hstrides, hpads⟩ := h.evaluate heval
  obtain ⟨-, -, -, hproper, -⟩ := PlanAttr.evaluate_eq_some.mp heval
  have hshape : tensor.shape = layout.axes.map Walk.Axis.padded := by
    rw [h.shape_eq, ← hview, Walk.shape_view]
  have hbox' := hbox
  rw [hshape] at hbox'
  obtain ⟨cell, hcell, hat⟩ := Walk.getElem?_walk hproper hbox'
  refine ⟨cell, hshape ▸ hcell, ?_, ?_⟩
  · rw [hat.dst, hstrides, ← h.shape_eq, dot_strides 1 hbox.length_eq, one_mul]
  · have hexplains := h.elements index hbox
    generalize tensor.element index = element at hexplains ⊢
    cases hexplains with
    | source hinside hpassed =>
        rw [← hview] at hinside
        have hnil := hat.inside.mpr hinside
        refine ⟨hnil, ?_, hpassed⟩
        rw [hat.src hnil, hview]
    | @fill passed k pad axis i hpad haxis hi houtside hpassed =>
        rw [← hview, List.getElem?_map] at haxis
        obtain ⟨value, hvalue, rfl⟩ := Option.map_eq_some_iff.mp haxis
        have hfill := hpads k value hvalue
        rw [hpad, Option.map_some] at hfill
        obtain ⟨found, hfound, hvalueEq⟩ := Option.map_eq_some_iff.mp hfill
        refine ⟨found.value, hat.fills k value found i hvalue hfound hi houtside, ?_⟩
        dsimp only
        rw [hvalueEq, hpassed]
        exact h.wellFormed.fused pad (PlanBuilder.findPad_eq_some hpad).1

/-- Its walk is of the size of the tensor. -/
theorem Traces.size_evaluate (h : Traces σ folding cells plan view tensor)
    (heval : (plan.finalPlan inverse helement).evaluate σ = some layout) :
    Walk.size layout.axes = tensor.shape.prod := by
  rw [h.shape_eq, ← (h.evaluate heval).1, Walk.shape_view]
  rfl

/-- Its destination is packed. -/
theorem Traces.packed_evaluate (h : Traces σ folding cells plan view tensor)
    (heval : (plan.finalPlan inverse helement).evaluate σ = some layout) :
    ∀ k axis, layout.axes[k]? = some axis → axis.padded ≠ 1 →
      axis.dstStride = Walk.size (layout.axes.drop (k + 1)) := by
  intro k axis haxis _
  obtain ⟨hview, hstrides, -⟩ := h.evaluate heval
  have hat : (layout.axes.map Walk.Axis.dstStride)[k]? = some axis.dstStride := by
    rw [List.getElem?_map, haxis]
    rfl
  rw [hstrides, getElem?_strides] at hat
  split at hat
  · rw [one_mul, Option.some.injEq, ← hview, Walk.shape_view, ← List.map_drop] at hat
    exact hat.symm
  · cases hat

end

/-! ### The meaning of a chain -/

section
variable {final canonical : PlanAttr} {layout layout' : Walk.Layout TypedAttr}

instance (σ : Name → Int) (plan : PlanBuilder α) : Decidable (plan.Divisible σ) :=
  inferInstanceAs (Decidable (∀ constraint ∈ plan.divisibility,
    ∃ value ∈ constraint.expr.evalChecked σ, constraint.divisor ∣ value))

/-- The constraints of a plan hold under symbol values. -/
def PlanAttr.Divisible (σ : Name → Int) (plan : PlanAttr) : Prop :=
  ∀ constraint ∈ plan.divisibility, ∃ value, constraint.expr.evalChecked σ = some value ∧
    constraint.divisor ∣ value

instance (σ : Name → Int) (plan : PlanAttr) : Decidable (plan.Divisible σ) :=
  inferInstanceAs (Decidable (∀ constraint ∈ plan.divisibility,
    ∃ value ∈ constraint.expr.evalChecked σ, constraint.divisor ∣ value))

theorem PlanBuilder.finalPlan_offsets {inverse : AffineMap}
    {helement : plan.elementType.IsTensorElement} (hsrc : plan.src.offset = .constant 0)
    (heval : (plan.finalPlan inverse helement).evaluate σ = some layout) :
    layout.srcOffset = 0 ∧ layout.dstOffset = 0 := by
  obtain ⟨hsrcOffset, hdstOffset, -, -⟩ := PlanAttr.evaluate_eq_some.mp heval
  exact ⟨evalChecked_constant hsrc hsrcOffset, evalChecked_constant rfl hdstOffset⟩

/-- A chain whose final plan evaluates: the plan builder traces the tensor, and no offset is
    added on either side. -/
theorem PlanBuilder.traces_of_evaluate
    (hfold : foldChain folding ops (start input) = .ok plan) (hfinal : plan.finalize = some final)
    (hsizes : input.shape.mapM (evalChecked σ) = some sizes) (hpos : Positive sizes)
    (hfits : FitsI64 sizes.prod)
    (hrun : ChainOp.run σ ops (Tensor.source sizes) = some tensor) (hdivides : final.Divisible σ)
    (heval : final.evaluate σ = some layout) :
    ∃ view inverse helement, final = plan.finalPlan inverse helement ∧
      Traces σ folding sizes.prod plan view tensor ∧
      layout.srcOffset = 0 ∧ layout.dstOffset = 0 := by
  obtain ⟨inverse, helement, -, rfl⟩ := finalize_eq_some hfinal
  obtain ⟨view, htraces⟩ := Traces.of_chain hfold hsizes hpos hfits hrun hdivides
  have hsrc : plan.src.offset = .constant 0 := by
    rw [(foldChain_keeps hfold).1]
    rfl
  exact ⟨view, inverse, helement, rfl, htraces, finalPlan_offsets hsrc heval⟩

/-- Rows in blocks of four, the columns outermost and a block in front, as 16-bit values. -/
def blockedInput : SymbolicTensorType :=
  ⟨[.symbol [110], .constant 3], .f32, MlirType.isTensorElement_f32⟩

def rowBlocks : SymExpr := .binary .div (.symbol [110]) (.constant 4)

def blockedCast : ValueOp Nat :=
  ⟨.cast, .ieeeRne, .f32, .f16, [.constant 3, .binary .add rowBlocks (.constant 1), .constant 4],
    none, none, none⟩

def blockedOps : List (ChainOp Nat) :=
  [.reshape [rowBlocks, .constant 4, .constant 3], .transpose [2, 0, 1],
    .pad 1 (.constant 1) (.constant 0) (.float .f32 0), .value blockedCast]

/-- A zero stays one. -/
def castZero : Folding Nat where
  affine := .binary
  foldFillThroughStage := fun value op =>
    if value = .float .f32 0 ∧ op.transform = .cast ∧ op.outputType = .f16
    then some (.float .f16 0) else none

def blockedPlan : PlanBuilder Nat where
  src := .packed blockedInput.shape .f32 MlirType.isTensorElement_f32
  axes := [⟨axisName 2, .constant 3, .constant 1⟩, ⟨axisName 0, rowBlocks, .constant 12⟩,
    ⟨axisName 1, .constant 4, .constant 3⟩]
  perm := [2, 0, 1]
  divisibility := [⟨.symbol [110], 4, by decide⟩]
  pads := [⟨1, .constant 1, .constant 0, .float .f16 0, .float .f32 0, 0⟩]
  elementType := .f16
  stages := [⟨blockedCast, none⟩]
  symbolNames := []

theorem foldChain_blocked :
    PlanBuilder.foldChain castZero blockedOps (PlanBuilder.start blockedInput) = .ok blockedPlan :=
  rfl

def eightRows : Name → Int := fun _ => 8

/-- The cells of the final plan are those of the indices. -/
theorem Traces.exists_index (h : Traces σ folding cells plan view tensor) {inverse : AffineMap}
    {helement : plan.elementType.IsTensorElement}
    (heval : (plan.finalPlan inverse helement).evaluate σ = some layout)
    {cell : Walk.Cell TypedAttr} (hcell : cell ∈ Walk.walk layout.axes) :
    ∃ index, InBox tensor.shape index ∧ cell.dst = flat tensor.shape index ∧
      cell.Carries folding plan (tensor.element index) := by
  obtain ⟨-, -, -, hproper, -⟩ := PlanAttr.evaluate_eq_some.mp heval
  obtain ⟨n, hn, rfl⟩ := List.mem_iff_getElem.mp hcell
  have hlt : (n : Int) < tensor.shape.prod := by
    rw [Walk.length_walk hproper, h.size_evaluate heval] at hn
    omega
  have hbox := inBox_unflat h.positive (Int.natCast_nonneg n) hlt
  obtain ⟨other, hother, hdst, hcarries⟩ := h.cell heval hbox
  rw [flat_unflat h.positive (Int.natCast_nonneg n) hlt, Int.toNat_natCast,
    List.getElem?_eq_getElem hn, Option.some.injEq] at hother
  subst hother
  exact ⟨_, hbox, hdst, hcarries⟩

theorem exists_permutationInverse {perm : List Int} (hnodup : perm.Nodup)
    (hrange : ∀ value ∈ perm, 0 ≤ value ∧ value < perm.length) :
    ∃ inverse, permutationInverse perm = some inverse ∧ inverse.numDims = perm.length ∧
      inverse.results = inversePermutationResults perm := by
  have hinRange : ∀ result ∈ inversePermutationResults perm, result.InRange perm.length 0 := by
    intro result hresult
    obtain ⟨position, hposition, rfl⟩ := List.mem_map.mp hresult
    exact List.idxOf_lt_length_of_mem
      (mem_of_nodup_of_range hnodup hrange (List.mem_range.mp hposition))
  exact ⟨_, dif_pos hinRange, rfl, rfl⟩

/-- A width whose value is not negative is not provably so. -/
theorem not_disproven_of_nonneg {width : SymExpr} {value : Int}
    (hvalue : width.evalWord σ = some value) (hnonneg : 0 ≤ value) :
    proveLessEqual (.constant 0) width ≠ .disproven := by
  intro h
  obtain ⟨l, r, hl, rfl, hlt⟩ := proveLessEqual_disproven h
  cases hl
  rw [(checked64_eq_some.mp hvalue).2] at hnonneg
  omega

theorem proveEqual_self (expr : SymExpr) : proveEqual expr expr = .proven := by
  unfold proveEqual
  rw [areLogicallyEqual_self, if_pos rfl]

/-- Every pad of the plan passes its check. -/
theorem Traces.checkPad (h : Traces σ folding cells plan view tensor)
    (helement : plan.elementType.IsTensorElement) (inverse : AffineMap) (check : Bool)
    {pad : PlanPad} (hpad : pad ∈ plan.pads) :
    SymReloc.checkPad wrap64 (plan.finalPlan inverse helement).axes
      (plan.finalPlan inverse helement).dst check ⟨pad.axis, pad.lo, pad.hi, pad.value⟩ =
      .ok () := by
  have hk := h.wellFormed.pads_lt pad hpad
  have hk' : pad.axis < view.length := h.length_eq ▸ hk
  have hfind : plan.findPad pad.axis = some pad :=
    (PlanBuilder.findPad_iff h.wellFormed.pads_nodup).mpr ⟨hpad, rfl⟩
  have hstrides : pad.axis < (canonicalRowMajorStrides wrap64 plan.dstExtents).length := by
    rw [length_canonicalRowMajorStrides, h.words_dstExtents.length_eq, length_shape]
    exact hk'
  have haxis : (plan.finalPlan inverse helement).axes[pad.axis]? =
      some ⟨plan.axes[pad.axis].name, plan.axes[pad.axis].extent, plan.axes[pad.axis].srcStride,
        (canonicalRowMajorStrides wrap64 plan.dstExtents)[pad.axis]⟩ :=
    getElem?_finalPlan_axes.mpr ⟨_, _, List.getElem?_eq_getElem hk,
      List.getElem?_eq_getElem hstrides, rfl⟩
  have hextent : (plan.finalPlan inverse helement).dst.extents[pad.axis]? =
      some (paddedExtent wrap64 plan.axes[pad.axis].extent pad.lo pad.hi) := by
    show ((plan.axes.zipIdx.map _).map PlanBuilder.Entry.padded)[pad.axis]? = _
    rw [List.getElem?_map, List.getElem?_map, List.getElem?_zipIdx, List.getElem?_eq_getElem hk]
    simp only [Option.map_some, Nat.zero_add, hfind, PlanBuilder.Entry.padded]
  have hdenotes := h.pads pad.axis _ (List.getElem?_eq_getElem hk')
  rw [hfind] at hdenotes
  have hsound := h.sound _ (List.getElem_mem hk')
  unfold SymReloc.checkPad
  rw [haxis, hextent]
  dsimp only
  rw [proveEqual_self]
  have hproven : Proof.proven ≠ .disproven ∧ Proof.proven ≠ .unknown := by decide
  simp only [except_bind_eq_ok]
  exact ⟨(), expect_eq_ok.mpr (not_disproven_of_nonneg hdenotes.1 hsound.lo_nonneg), (),
    expect_eq_ok.mpr (not_disproven_of_nonneg hdenotes.2 hsound.hi_nonneg), (),
    expect_eq_ok.mpr hproven.1, expect_eq_ok.mpr (.inl hproven.2)⟩

/-- The plan of a builder that traces a tensor verifies. -/
theorem Traces.verified (h : Traces σ folding cells plan view tensor)
    (helement : plan.elementType.IsTensorElement) {inverse : AffineMap}
    (hdims : inverse.numDims = plan.axes.length)
    (hresults : inverse.results = inversePermutationResults plan.perm) :
    (plan.finalPlan inverse helement).Verified wrap64 := by
  have hperm := h.wellFormed.perm.length_eq
  rw [List.length_map, List.length_range] at hperm
  have haxes : (plan.finalPlan inverse helement).axes.length = plan.axes.length :=
    h.length_finalPlan_axes
  constructor
  · exact hperm.trans haxes.symm
  · exact .inr ((List.length_map _).trans haxes.symm)
  · exact h.length_dstExtents.trans haxes.symm
  · intro pad hpad
    obtain ⟨old, hold, rfl⟩ := List.mem_map.mp hpad
    exact h.checkPad helement inverse _ hold
  · exact fun entry hentry => absurd hentry List.not_mem_nil
  · refine h.wellFormed.perm.nodup_iff.mpr (List.nodup_range.map ?_)
    exact fun j k hjk => Int.ofNat.inj hjk
  · intro value hvalue
    obtain ⟨k, hk, rfl⟩ := List.mem_map.mp (h.wellFormed.perm.mem_iff.mp hvalue)
    have hlt := List.mem_range.mp hk
    rw [haxes]
    omega
  · exact hdims.trans haxes.symm
  · show inverse.results.length = _
    rw [hresults, inversePermutationResults, List.length_map, List.length_range, hperm, haxes]
  · exact fun _ _ => hresults
  · intro entry hentry
    obtain ⟨haxis, hstride⟩ := List.getElem?_zip_eq_some.mp
      (List.mem_zipIdx_iff_getElem?.mp hentry)
    have hsame : entry.1.1.dstStride = entry.1.2 := by
      obtain ⟨axis, stride, -, hat, hinfo⟩ := getElem?_finalPlan_axes.mp haxis
      have hfound : (canonicalRowMajorStrides wrap64 plan.dstExtents)[entry.2]? = some entry.1.2 :=
        hstride
      rw [hat, Option.some.injEq] at hfound
      rw [hinfo, hfound]
    rw [checkDstStride, expect_eq_ok, hsame, proveEqual_self]
    decide
  · intro entry hentry
    obtain ⟨hflag, haxis⟩ := List.getElem?_zip_eq_some.mp
      (List.mem_zipIdx_iff_getElem?.mp hentry)
    rw [checkContiguity, expect_eq_ok]
    intro hset
    obtain ⟨axis, stride, hat, -, hinfo⟩ := getElem?_finalPlan_axes.mp haxis
    have hunit : (plan.axes.map fun axis =>
        decide (proveEqual axis.srcStride (.constant 1) = .proven))[entry.2]? =
          some entry.1.1 := hflag
    rw [List.getElem?_map, hat, Option.map_some, Option.some.injEq, hset,
      decide_eq_true_iff] at hunit
    rw [hinfo]
    dsimp only
    rw [hunit]
    decide

/-- A chain that has a meaning under some symbol values, ones that meet the constraints of its plan,
    has a final plan: the verifier finds nothing to refuse. -/
theorem exists_finalize
    (hfold : PlanBuilder.foldChain folding ops (PlanBuilder.start input) = .ok plan)
    (htyped : ChainOp.Typed ops)
    (hsizes : input.shape.mapM (evalChecked σ) = some sizes) (hpos : Positive sizes)
    (hfits : FitsI64 sizes.prod)
    (hrun : ChainOp.run σ ops (Tensor.source sizes) = some tensor) (hdivides : plan.Divisible σ) :
    ∃ final, plan.finalize = some final := by
  obtain ⟨view, htraces⟩ := Traces.of_chain hfold hsizes hpos hfits hrun hdivides
  have helement : plan.elementType.IsTensorElement :=
    (PlanBuilder.foldChain_keeps hfold).2.2 htyped input.elementType_ok
  have hperm := htraces.wellFormed.perm
  have hlength := hperm.length_eq
  rw [List.length_map, List.length_range] at hlength
  have hnodup : plan.perm.Nodup :=
    hperm.nodup_iff.mpr (List.nodup_range.map fun _ _ hjk => Int.ofNat.inj hjk)
  have hrange : ∀ value ∈ plan.perm, 0 ≤ value ∧ value < plan.perm.length := by
    intro value hvalue
    obtain ⟨k, hk, rfl⟩ := List.mem_map.mp (hperm.mem_iff.mp hvalue)
    have hlt := List.mem_range.mp hk
    omega
  obtain ⟨inverse, hinverse, hdims, hresults⟩ := exists_permutationInverse hnodup hrange
  have hverified := htraces.verified helement (hdims.trans hlength) hresults
  refine ⟨plan.finalPlan inverse helement, ?_⟩
  unfold PlanBuilder.finalize
  rw [dif_pos helement, hinverse]
  exact if_pos (PlanAttr.verify_eq_ok.mpr hverified)

theorem exists_finalize_blocked : ∃ final, blockedPlan.finalize = some final := by
  have hsizes : blockedInput.shape.mapM (evalChecked eightRows) = some [8, 3] := rfl
  refine exists_finalize foldChain_blocked ?_ hsizes ?_ ?_ rfl ?_
  all_goals decide

end

end SymReloc
