import Mathlib.Data.Finset.Card
import SymReloc.Reloc.Canonicalize
import SymReloc.Word

/-!
# When canonicalization is idempotent

The expressions of a canonical plan are normal forms of the simplifier, its lists are
sorted, and its destination strides are those of its extents, so a second run can
only differ from the first by merging more (`canonicalizePlan_twice`).  It does so exactly
when the first merge loop left a pair of axes that only the destination strides, since
recomputed, kept apart.
-/

namespace SymReloc

open SymExpr

variable {w : Int → Int}

/-! ### Normal expressions -/

namespace SymExpr

/-- No node of the expression simplifies. -/
def Normal (w : Int → Int) : SymExpr → Prop
  | .symbol _ => True
  | .constant _ => True
  | .binary opcode lhs rhs =>
      lhs.Normal w ∧ rhs.Normal w ∧ simplifyBinaryExpr w opcode lhs rhs = none

theorem identityRule_cases {opcode : SymbolicExprOp} {lhs rhs expr : SymExpr}
    (h : identityRule opcode lhs rhs = some expr) :
    expr = lhs ∨ expr = rhs ∨ ∃ c, expr = .constant c := by
  cases opcode <;> simp only [identityRule] at h <;> split_ifs at h <;> cases h <;> simp

theorem Normal.of_identityRule {opcode : SymbolicExprOp} {lhs rhs expr : SymExpr}
    (hl : lhs.Normal w) (hr : rhs.Normal w) (h : identityRule opcode lhs rhs = some expr) :
    expr.Normal w := by
  rcases identityRule_cases h with rfl | rfl | ⟨c, rfl⟩
  · exact hl
  · exact hr
  · trivial

theorem normal_getD {opcode : SymbolicExprOp} {lhs rhs : SymExpr} (hl : lhs.Normal w)
    (hr : rhs.Normal w)
    (h : ∀ expr, simplifyBinaryExpr w opcode lhs rhs = some expr → expr.Normal w) :
    ((simplifyBinaryExpr w opcode lhs rhs).getD (.binary opcode lhs rhs)).Normal w := by
  cases hsimplify : simplifyBinaryExpr w opcode lhs rhs with
  | none => exact ⟨hl, hr, hsimplify⟩
  | some expr => exact h expr hsimplify

theorem normal_simplifyBinaryExpr {opcode : SymbolicExprOp} {lhs rhs expr : SymExpr}
    (hl : lhs.Normal w) (hr : rhs.Normal w)
    (h : simplifyBinaryExpr w opcode lhs rhs = some expr) : expr.Normal w := by
  fun_induction simplifyBinaryExpr w opcode lhs rhs generalizing expr with
  | case1 opcode l r =>
      obtain ⟨c, -, rfl⟩ := Option.map_eq_some_iff.mp h
      trivial
  | case2 opcode inner x c₁ c₂ expr' hrule =>
      cases h
      exact hl.of_identityRule hr hrule
  | case3 opcode inner x c₁ c₂ hrule op c hop ih =>
      cases h
      exact normal_getD hl.1 trivial fun expr hexpr => ih hl.1 trivial hexpr
  | case4 => cases h
  | case5 opcode lhs rhs => exact hl.of_identityRule hr h

theorem normal_getSimplifiedBinaryExpr {lhs rhs : SymExpr} (opcode : SymbolicExprOp)
    (hl : lhs.Normal w) (hr : rhs.Normal w) :
    (getSimplifiedBinaryExpr w opcode lhs rhs).Normal w :=
  normal_getD hl hr fun _ => normal_simplifyBinaryExpr hl hr

end SymExpr

theorem normal_resimplify (expr : SymExpr) : (resimplify w expr).Normal w := by
  induction expr with
  | symbol name => trivial
  | constant value => trivial
  | binary opcode lhs rhs ihl ihr => exact normal_getSimplifiedBinaryExpr opcode ihl ihr

theorem resimplify_of_normal {expr : SymExpr} (h : expr.Normal w) : resimplify w expr = expr := by
  induction expr with
  | symbol name => rfl
  | constant value => rfl
  | binary opcode lhs rhs ihl ihr =>
      obtain ⟨hl, hr, hnone⟩ := h
      rw [resimplify, ihl hl, ihr hr, getSimplifiedBinaryExpr, hnone, Option.getD_none]

@[simp] theorem resimplify_resimplify (expr : SymExpr) :
    resimplify w (resimplify w expr) = resimplify w expr :=
  resimplify_of_normal (normal_resimplify expr)

theorem normal_paddedExtent {extent lo hi : SymExpr} (he : extent.Normal w) (hlo : lo.Normal w)
    (hhi : hi.Normal w) : (paddedExtent w extent lo hi).Normal w :=
  normal_getSimplifiedBinaryExpr _ (normal_getSimplifiedBinaryExpr _ he hlo) hhi

theorem normal_canonicalRowMajorStrides {extents : List SymExpr}
    (h : ∀ extent ∈ extents, extent.Normal w) :
    ∀ stride ∈ canonicalRowMajorStrides w extents, stride.Normal w := by
  have hall : (∀ stride ∈ (extents.foldr (fun extent result =>
        (result.2 :: result.1, getSimplifiedBinaryExpr w .mul result.2 extent))
        (([] : List SymExpr), .constant 1)).1, stride.Normal w) ∧
      (extents.foldr (fun extent result =>
        (result.2 :: result.1, getSimplifiedBinaryExpr w .mul result.2 extent))
        (([] : List SymExpr), .constant 1)).2.Normal w := by
    induction extents with
    | nil => exact ⟨by simp, trivial⟩
    | cons extent rest ih =>
        rw [List.forall_mem_cons] at h
        obtain ⟨hstrides, hproduct⟩ := ih h.2
        exact ⟨List.forall_mem_cons.mpr ⟨hproduct, hstrides⟩,
          normal_getSimplifiedBinaryExpr _ hproduct h.1⟩
  exact hall.1

/-! ### Sorted lists -/

section Sorted

variable {α κ : Type} [LinearOrder κ] {key : α → κ} {values : List α}

theorem pairwise_sortOn (key : α → κ) (values : List α) :
    (sortOn key values).Pairwise fun a b => key a ≤ key b := by
  have : Std.Total (fun a b : α => key a ≤ key b) := ⟨fun a b => le_total _ _⟩
  have : IsTrans α (fun a b : α => key a ≤ key b) := ⟨fun _ _ _ => le_trans⟩
  exact List.pairwise_insertionSort _ values

theorem sortOn_of_pairwise (h : values.Pairwise fun a b => key a ≤ key b) :
    sortOn key values = values := h.insertionSort_eq

theorem mem_sortOn {value : α} : value ∈ sortOn key values ↔ value ∈ values :=
  List.mem_insertionSort _

end Sorted


/-! ### The merge loop -/

theorem CanonState.joinable_lt {state : CanonState} {k : Nat} (h : state.joinable w k = true) :
    k + 1 < state.axes.length := by
  unfold CanonState.joinable at h
  split at h
  · rename_i hinner _ _
    exact (List.getElem?_eq_some_iff.mp hinner).1
  · cases h

theorem CanonState.not_referenced {state : CanonState} {k : Nat}
    (h : state.joinable w k = true) :
    state.referenced k = false ∧ state.referenced (k + 1) = false := by
  unfold CanonState.joinable at h
  split at h
  · simp only [Bool.and_eq_true, Bool.not_eq_true'] at h
    exact ⟨h.1.1.1, h.1.1.2⟩
  · cases h

theorem CanonState.referenced_eq_false {state : CanonState} {k : Nat} :
    state.referenced k = false ↔
      (∀ pad ∈ state.pads, pad.dstAxis ≠ k) ∧ ∀ entry ∈ state.alignments, entry.axis ≠ k := by
  simp [CanonState.referenced]

/-- Off the merged pair the renumbering keeps the order. -/
theorem dropIndex_lt {k a b : Nat} (hab : a < b) (ha : a ≠ k) : dropIndex k a < dropIndex k b := by
  unfold dropIndex
  split_ifs <;> omega

/-- One round of the loop: the first pair that can be merged. -/
def CanonState.firstMergeable (w : Int → Int) (state : CanonState) : Option Nat :=
  (List.range (state.axes.length - 1)).find? (state.mergeable w)

theorem CanonState.firstMergeable_eq_none {state : CanonState} :
    state.firstMergeable w = none ↔ ∀ k, state.mergeable w k = false := by
  unfold CanonState.firstMergeable
  simp only [List.find?_eq_none, List.mem_range, Bool.not_eq_true]
  constructor
  · intro h k
    by_cases hk : k < state.axes.length - 1
    · exact h k hk
    · cases hmerge : state.mergeable w k with
      | false => rfl
      | true =>
          have := joinable_lt (Bool.and_eq_true_iff.mp hmerge).1
          omega
  · intro h k _
    exact h k

/-- Folded constants and sorted lists: what canonicalization gives every state. -/
structure CanonState.Folded (w : Int → Int) (state : CanonState) : Prop where
  axes : ∀ axis ∈ state.axes,
    axis.extent.Normal w ∧ axis.srcStride.Normal w ∧ axis.dstStride.Normal w
  padWidths : ∀ pad ∈ state.pads, pad.lo.Normal w ∧ pad.hi.Normal w
  pads : state.pads.Pairwise fun a b => a.dstAxis ≤ b.dstAxis
  alignments : state.alignments.Pairwise fun a b =>
    toLex (a.axis, a.bytes) ≤ toLex (b.axis, b.bytes)

/-- The merge loop also keeps that no axis is padded twice. -/
structure CanonState.Ordered (w : Int → Int) (state : CanonState) : Prop
    extends CanonState.Folded w state where
  distinct : state.pads.Pairwise fun a b => a.dstAxis < b.dstAxis

theorem CanonState.merge_fields {state : CanonState} {k : Nat} (h : state.joinable w k = true) :
    ∃ outer inner, state.axes[k]? = some outer ∧ state.axes[k + 1]? = some inner ∧
      (state.merge w k).axes = (state.axes.set k
        { extent := getSimplifiedBinaryExpr w .mul outer.extent inner.extent
          srcStride := inner.srcStride
          dstStride := inner.dstStride }).eraseIdx (k + 1) ∧
      (state.merge w k).pads =
        state.pads.map (fun pad => { pad with dstAxis := dropIndex k pad.dstAxis }) ∧
      (state.merge w k).alignments = state.alignments.map (fun entry =>
        { entry with axis := dropIndex k entry.axis }) := by
  unfold CanonState.joinable at h
  split at h
  · rename_i outer inner view next houter hinner hview hnext
    refine ⟨outer, inner, houter, hinner, ?_⟩
    simp only [CanonState.merge, houter, hinner, hview, and_self]
  · cases h

theorem CanonState.length_merge {state : CanonState} {k : Nat} (h : state.joinable w k = true) :
    (state.merge w k).axes.length = state.axes.length - 1 := by
  obtain ⟨outer, inner, houter, hinner, haxes, -, -⟩ := merge_fields h
  have hlt := joinable_lt h
  rw [haxes, List.length_eraseIdx, List.length_set, if_pos hlt]

theorem CanonState.Ordered.merge {state : CanonState} {k : Nat} (hordered : state.Ordered w)
    (h : state.joinable w k = true) : (state.merge w k).Ordered w := by
  obtain ⟨outer, inner, houter, hinner, haxes, hpads, halignments⟩ := merge_fields h
  obtain ⟨hfree, -⟩ := not_referenced h
  obtain ⟨hnoPad, hnoAlignment⟩ := referenced_eq_false.mp hfree
  have hnormalOuter := hordered.axes outer (List.mem_of_getElem? houter)
  have hnormalInner := hordered.axes inner (List.mem_of_getElem? hinner)
  have hdistinct : (state.merge w k).pads.Pairwise fun a b => a.dstAxis < b.dstAxis := by
    rw [hpads, List.pairwise_map]
    exact hordered.distinct.imp_of_mem fun ha _ hab => dropIndex_lt hab (hnoPad _ ha)
  refine ⟨⟨?_, ?_, hdistinct.imp le_of_lt, ?_⟩, hdistinct⟩
  · intro axis haxis
    rw [haxes] at haxis
    rcases List.mem_or_eq_of_mem_set (List.mem_of_mem_eraseIdx haxis) with hold | rfl
    · exact hordered.axes axis hold
    · exact ⟨normal_getSimplifiedBinaryExpr _ hnormalOuter.1 hnormalInner.1, hnormalInner.2⟩
  · intro pad hpad
    rw [hpads, List.mem_map] at hpad
    obtain ⟨old, hold, rfl⟩ := hpad
    exact hordered.padWidths old hold
  · rw [halignments, List.pairwise_map]
    refine hordered.alignments.imp_of_mem fun ha _ hab => ?_
    rw [Prod.Lex.toLex_le_toLex] at hab ⊢
    rcases hab with hlt | ⟨heq, hbytes⟩
    · exact .inl (dropIndex_lt hlt (hnoAlignment _ ha))
    · exact .inr ⟨congrArg (dropIndex k) heq, hbytes⟩

theorem CanonState.mergeable_of_first {state : CanonState} {k : Nat}
    (h : state.firstMergeable w = some k) : state.mergeable w k = true :=
  List.find?_some h

theorem CanonState.joinable_of_first {state : CanonState} {k : Nat}
    (h : state.firstMergeable w = some k) : state.joinable w k = true :=
  (Bool.and_eq_true_iff.mp (mergeable_of_first h)).1

theorem CanonState.mergeLoop_succ (fuel : Nat) (state : CanonState) :
    state.mergeLoop w (fuel + 1) =
      match state.firstMergeable w with
      | some k => (state.merge w k).mergeLoop w fuel
      | none => state := rfl

/-- With fuel for every axis the loop stops because no pair is left. -/
theorem CanonState.mergeLoop_stops {fuel : Nat} {state : CanonState}
    (hfuel : state.axes.length ≤ fuel) : (state.mergeLoop w fuel).firstMergeable w = none := by
  induction fuel generalizing state with
  | zero =>
      rw [firstMergeable_eq_none]
      intro k
      cases hmerge : state.mergeable w k with
      | false => exact hmerge
      | true =>
          have := joinable_lt (Bool.and_eq_true_iff.mp hmerge).1
          omega
  | succ fuel ih =>
      rw [mergeLoop_succ]
      cases hfirst : state.firstMergeable w with
      | none => exact hfirst
      | some k =>
          refine ih ?_
          rw [length_merge (joinable_of_first hfirst)]
          omega

theorem CanonState.mergeLoop_of_none {fuel : Nat} {state : CanonState}
    (h : state.firstMergeable w = none) : state.mergeLoop w fuel = state := by
  cases fuel with
  | zero => rfl
  | succ fuel => rw [mergeLoop_succ, h]

theorem CanonState.Ordered.mergeLoop {fuel : Nat} {state : CanonState}
    (hordered : state.Ordered w) : (state.mergeLoop w fuel).Ordered w := by
  induction fuel generalizing state with
  | zero => exact hordered
  | succ fuel ih =>
      rw [mergeLoop_succ]
      cases hfirst : state.firstMergeable w with
      | none => exact hordered
      | some k => exact ih (hordered.merge (joinable_of_first hfirst))

theorem CanonState.length_mergeLoop_le (fuel : Nat) (state : CanonState) :
    (state.mergeLoop w fuel).axes.length ≤ state.axes.length := by
  induction fuel generalizing state with
  | zero => exact le_rfl
  | succ fuel ih =>
      rw [mergeLoop_succ]
      cases hfirst : state.firstMergeable w with
      | none => exact le_rfl
      | some k =>
          have hmerge := length_merge (joinable_of_first hfirst)
          exact (ih (state.merge w k)).trans (by omega)

/-! ### The state of a canonical plan -/

theorem uniquePadAxes_iff {pads : List PadFillAttr}
    (hsorted : pads.Pairwise fun a b => a.dstAxis ≤ b.dstAxis) :
    uniquePadAxes pads = true ↔ pads.Pairwise fun a b => a.dstAxis < b.dstAxis := by
  induction pads with
  | nil => simp [uniquePadAxes]
  | cons first rest ih =>
      rw [List.pairwise_cons] at hsorted ⊢
      cases rest with
      | nil => simp [uniquePadAxes]
      | cons second rest =>
          rw [uniquePadAxes, Bool.and_eq_true, bne_iff_ne, ih hsorted.2]
          constructor
          · intro ⟨hne, hrest⟩
            refine ⟨fun pad hpad => ?_, hrest⟩
            have hfirst := hsorted.1 second List.mem_cons_self
            rcases List.mem_cons.mp hpad with rfl | hpad
            · omega
            · have := (List.pairwise_cons.mp hrest).1 pad hpad
              omega
          · intro ⟨hfirst, hrest⟩
            exact ⟨Nat.ne_of_lt (hfirst second List.mem_cons_self), hrest⟩

theorem PlanAttr.pairwise_sortedPads (plan : PlanAttr) :
    (plan.sortedPads w).Pairwise fun a b => a.dstAxis ≤ b.dstAxis :=
  pairwise_sortOn _ _

theorem PlanAttr.folded_canonState (plan : PlanAttr) : (plan.canonState w).Folded w := by
  constructor
  · intro axis haxis
    obtain ⟨old, _, rfl⟩ := List.mem_map.mp haxis
    exact ⟨normal_resimplify _, normal_resimplify _, normal_resimplify _⟩
  · intro pad hpad
    obtain ⟨old, _, rfl⟩ := List.mem_map.mp (mem_sortOn.mp hpad)
    exact ⟨normal_resimplify _, normal_resimplify _⟩
  · exact plan.pairwise_sortedPads
  · exact pairwise_sortOn _ _

theorem PlanAttr.foldNormal_iff {plan : PlanAttr} :
    plan.foldNormal w = true ↔ plan.dst.strides = [] ∧ plan.inverse.isPermutation = true ∧
      uniquePadAxes (plan.sortedPads w) = true := by
  rw [PlanAttr.foldNormal, Bool.and_eq_true, Bool.and_eq_true, beq_iff_eq, and_assoc]

theorem PlanAttr.mergedState_eq {plan : PlanAttr} (h : plan.foldNormal w = true) :
    plan.mergedState w = (plan.canonState w).mergeLoop w plan.axes.length := if_pos h

theorem PlanAttr.ordered_mergedState {plan : PlanAttr} (h : plan.foldNormal w = true) :
    (plan.mergedState w).Ordered w := by
  rw [mergedState_eq h]
  have hdistinct := (uniquePadAxes_iff plan.pairwise_sortedPads).mp (foldNormal_iff.mp h).2.2
  exact CanonState.Ordered.mergeLoop ⟨plan.folded_canonState, hdistinct⟩

/-- The state with other destination strides. -/
def CanonState.withStrides (state : CanonState) (strides : List SymExpr) : CanonState :=
  { state with
    axes := (state.axes.zip strides).map fun entry => { entry.1 with dstStride := entry.2 } }

/-- The state with the destination strides of the rebuilt descriptor. -/
def CanonState.restride (w : Int → Int) (state : CanonState) : CanonState :=
  state.withStrides (canonicalRowMajorStrides w (state.dstExtents w))

theorem CanonState.length_dstExtents (state : CanonState) :
    (state.dstExtents w).length = state.axes.length := by
  rw [CanonState.dstExtents, List.length_map, List.length_zipIdx]

theorem PlanAttr.folded_mergedState (plan : PlanAttr) : (plan.mergedState w).Folded w := by
  cases h : plan.foldNormal w with
  | true => exact (ordered_mergedState h).toFolded
  | false =>
      rw [PlanAttr.mergedState, h]
      exact plan.folded_canonState

/-- The destination strides a canonical plan is given. -/
def PlanAttr.canonStrides (w : Int → Int) (plan : PlanAttr) : List SymExpr :=
  if plan.foldNormal w then canonicalRowMajorStrides w ((plan.mergedState w).dstExtents w)
  else (plan.mergedState w).axes.map CanonAxis.dstStride

theorem PlanAttr.length_canonStrides (plan : PlanAttr) :
    (plan.canonStrides w).length = (plan.mergedState w).axes.length := by
  unfold PlanAttr.canonStrides
  split
  · rw [length_canonicalRowMajorStrides, CanonState.length_dstExtents]
  · rw [List.length_map]

theorem normal_widenExtent {k : Nat} {extent : SymExpr} {pads : List PadFillAttr}
    (he : extent.Normal w) (hpads : ∀ pad ∈ pads, pad.lo.Normal w ∧ pad.hi.Normal w) :
    (widenExtent w k extent pads).Normal w := by
  unfold widenExtent
  induction pads generalizing extent with
  | nil => exact he
  | cons pad rest ih =>
      rw [List.forall_mem_cons] at hpads
      rw [List.foldl_cons]
      refine ih ?_ hpads.2
      split
      · exact normal_paddedExtent he hpads.1.1 hpads.1.2
      · exact he

theorem CanonState.Folded.normal_dstExtents {state : CanonState} (h : state.Folded w) :
    ∀ extent ∈ state.dstExtents w, extent.Normal w := by
  intro extent hextent
  obtain ⟨⟨axis, k⟩, hmem, rfl⟩ := List.mem_map.mp hextent
  exact normal_widenExtent (h.axes axis (List.fst_mem_of_mem_zipIdx hmem)).1 h.padWidths

theorem PlanAttr.normal_canonStrides (plan : PlanAttr) :
    ∀ stride ∈ plan.canonStrides w, stride.Normal w := by
  unfold PlanAttr.canonStrides
  split
  · exact normal_canonicalRowMajorStrides plan.folded_mergedState.normal_dstExtents
  · intro stride hstride
    obtain ⟨axis, haxis, rfl⟩ := List.mem_map.mp hstride
    exact (plan.folded_mergedState.axes axis haxis).2.2

theorem map_zipIdx_fst {α β : Type} (f : α → β) (values : List α) :
    (values.zipIdx.map fun entry => f entry.1) = values.map f := by
  have := congrArg (List.map f) (List.zipIdx_map_fst 0 values)
  rwa [List.map_map] at this

/-- The second run starts from what the first one ended with, but for the strides. -/
theorem PlanAttr.canonState_canonical (plan : PlanAttr) (inverse : AffineMap) :
    (plan.canonical w inverse).canonState w =
      (plan.mergedState w).withStrides (plan.canonStrides w) := by
  have hfolded := plan.folded_mergedState (w := w)
  have haxes : (plan.canonical w inverse).axes.map (fun axis =>
      ({ extent := resimplify w axis.extent
         srcStride := resimplify w axis.srcStride
         dstStride := resimplify w axis.dstStride } : CanonAxis)) =
      ((plan.mergedState w).axes.zip (plan.canonStrides w)).map fun entry =>
        { entry.1 with dstStride := entry.2 } := by
    show ((((plan.mergedState w).axes.zip (plan.canonStrides w)).zipIdx).map _).map _ = _
    rw [List.map_map]
    refine Eq.trans (List.map_congr_left fun entry hentry => ?_) (map_zipIdx_fst _ _)
    obtain ⟨haxis, hstride⟩ := List.of_mem_zip (List.fst_mem_of_mem_zipIdx hentry)
    have hnormal := hfolded.axes _ haxis
    simp only [Function.comp_apply, resimplify_of_normal hnormal.1,
      resimplify_of_normal hnormal.2.1, resimplify_of_normal (plan.normal_canonStrides _ hstride)]
  have hpads : (plan.canonical w inverse).sortedPads w = (plan.mergedState w).pads := by
    show sortOn _ (List.map _ (plan.mergedState w).pads) = _
    rw [List.map_congr_left (g := id), List.map_id, sortOn_of_pairwise hfolded.pads]
    intro pad hpad
    obtain ⟨hlo, hhi⟩ := hfolded.padWidths pad hpad
    rw [resimplify_of_normal hlo, resimplify_of_normal hhi, id]
  have halignments := sortOn_of_pairwise hfolded.alignments
  rw [PlanAttr.canonState, haxes, hpads]
  exact congrArg (CanonState.mk _ _ _) halignments

/-! ### The inverse map -/

/-- A list of distinct positions as long as their range holds each of them. -/
theorem mem_of_nodup_of_range {perm : List Int} (hnodup : perm.Nodup)
    (hrange : ∀ value ∈ perm, 0 ≤ value ∧ value < perm.length) {position : Nat}
    (h : position < perm.length) : (position : Int) ∈ perm := by
  have hsubset : perm.toFinset ⊆ (Finset.range perm.length).image Nat.cast := by
    intro value hvalue
    obtain ⟨hlo, hhi⟩ := hrange value (List.mem_toFinset.mp hvalue)
    rw [Finset.mem_image]
    exact ⟨value.toNat, Finset.mem_range.mpr (by omega), by omega⟩
  have hcard : ((Finset.range perm.length).image (Nat.cast : Nat → Int)).card ≤
      perm.toFinset.card := by
    rw [List.toFinset_card_of_nodup hnodup]
    exact Finset.card_image_le.trans (by rw [Finset.card_range])
  rw [← List.mem_toFinset, Finset.eq_of_subset_of_card_le hsubset hcard]
  exact Finset.mem_image_of_mem _ (Finset.mem_range.mpr h)

theorem plainDims_map_dim (positions : List Nat) :
    plainDims (positions.map .dim) = some positions := by
  induction positions with
  | nil => rfl
  | cons position rest ih => rw [List.map_cons, plainDims, ih, Option.map_some]

theorem isPermutation_permutationInverse {perm : List Int} {inverse : AffineMap}
    (h : permutationInverse perm = some inverse) (hnodup : perm.Nodup)
    (hrange : ∀ value ∈ perm, 0 ≤ value ∧ value < perm.length) :
    inverse.isPermutation = true := by
  unfold permutationInverse at h
  split at h
  · cases h
    have hresults : inversePermutationResults perm =
        ((List.range perm.length).map fun position : Nat =>
          perm.idxOf (position : Int)).map .dim := by
      rw [inversePermutationResults, List.map_map]
      rfl
    have hdistinct : ((List.range perm.length).map fun position : Nat =>
        perm.idxOf (position : Int)).Nodup := by
      refine List.nodup_range.map_on fun a ha b hb hab => ?_
      have hmem := mem_of_nodup_of_range hnodup hrange (List.mem_range.mp ha)
      exact Int.ofNat.inj ((List.idxOf_inj hmem).mp hab)
    simp only [AffineMap.isPermutation, hresults, plainDims_map_dim, decide_eq_true hdistinct,
      List.length_map, List.length_range, beq_self_eq_true, Bool.and_self]
  · cases h

/-! ### A second run -/

theorem canonicalizePlan_eq_some {plan p : PlanAttr} :
    canonicalizePlan w plan = some p ↔
      ∃ inverse, plan.canonInverse w = some inverse ∧
        p = plan.canonical w inverse ∧ p.Verified w := by
  simp only [canonicalizePlan, Option.bind_eq_bind, Option.bind_eq_some_iff]
  constructor
  · intro ⟨inverse, hinverse, h⟩
    split at h
    · rename_i hverified
      cases h
      exact ⟨inverse, hinverse, rfl, PlanAttr.verify_eq_ok.mp hverified⟩
    · cases h
  · intro ⟨inverse, hinverse, heq, hverified⟩
    rw [heq] at hverified ⊢
    exact ⟨inverse, hinverse, if_pos (PlanAttr.verify_eq_ok.mpr hverified)⟩

theorem PlanAttr.sortedPads_canonical (plan : PlanAttr) (inverse : AffineMap) :
    (plan.canonical w inverse).sortedPads w = (plan.mergedState w).pads :=
  congrArg CanonState.pads (plan.canonState_canonical inverse)

/-- A canonical plan is in fold-normal form exactly when the plan it comes from is. -/
theorem foldNormal_canonical {plan : PlanAttr} {inverse : AffineMap}
    (hinverse : plan.canonInverse w = some inverse)
    (hverified : (plan.canonical w inverse).Verified w) :
    (plan.canonical w inverse).foldNormal w = plan.foldNormal w := by
  cases h : plan.foldNormal w with
  | true =>
      rw [PlanAttr.canonInverse, if_pos h] at hinverse
      have hlength := hverified.perm_size
      have hrange := hverified.perm_range
      rw [← hlength] at hrange
      have hordered := PlanAttr.ordered_mergedState h
      rw [PlanAttr.foldNormal_iff, PlanAttr.sortedPads_canonical]
      refine ⟨?_, isPermutation_permutationInverse hinverse hverified.perm_nodup hrange,
        (uniquePadAxes_iff hordered.pads).mpr hordered.distinct⟩
      show (plan.canonDst w).strides = []
      rw [PlanAttr.canonDst, if_pos h]
  | false =>
      rw [PlanAttr.canonInverse, h] at hinverse
      cases hinverse
      have hpads : (plan.canonical w plan.inverse).sortedPads w = plan.sortedPads w := by
        rw [PlanAttr.sortedPads_canonical, PlanAttr.mergedState, h]
        rfl
      have hstrides : ((plan.canonical w plan.inverse).dst.strides == []) =
          (plan.dst.strides == []) := by
        show ((plan.canonDst w).strides == []) = _
        rw [PlanAttr.canonDst, h]
        show (plan.dst.strides.map (resimplify w) == []) = _
        cases plan.dst.strides <;> rfl
      rw [← h, PlanAttr.foldNormal, PlanAttr.foldNormal, hpads, hstrides]
      rfl

/-- The stride of an axis is the next one times the next extent. -/
theorem canonicalRowMajorStrides_getElem? {extents : List SymExpr} {k : Nat}
    {inner extent : SymExpr}
    (hinner : (canonicalRowMajorStrides w extents)[k + 1]? = some inner)
    (hextent : extents[k + 1]? = some extent) :
    (canonicalRowMajorStrides w extents)[k]? =
      some (getSimplifiedBinaryExpr w .mul inner extent) := by
  induction extents generalizing k with
  | nil => cases hextent
  | cons first rest ih =>
      cases k with
      | succ k => exact ih hinner hextent
      | zero =>
          cases rest with
          | nil => cases hextent
          | cons second rest =>
              cases hinner
              cases hextent
              rfl

theorem CanonState.dstExtents_eq (state : CanonState) :
    state.dstExtents w = (state.axes.map CanonAxis.extent).zipIdx.map fun entry =>
      widenExtent w entry.2 entry.1 state.pads := by
  rw [CanonState.dstExtents, List.zipIdx_map, List.map_map]
  rfl

section
variable {state : CanonState} {strides : List SymExpr}
  (hstrides : strides.length = state.axes.length)
include hstrides

theorem CanonState.length_withStrides : (state.withStrides strides).axes.length =
    state.axes.length := by
  rw [CanonState.withStrides, List.length_map, List.length_zip, hstrides, Nat.min_self]

/-- What is read of an axis besides its destination stride stays. -/
theorem CanonState.map_withStrides {α : Type} (f : CanonAxis → α)
    (hf : ∀ (axis : CanonAxis) (stride : SymExpr), f { axis with dstStride := stride } = f axis) :
    (state.withStrides strides).axes.map f = state.axes.map f := by
  have hfst := congrArg (List.map f) (List.map_fst_zip hstrides.ge)
  rw [List.map_map] at hfst
  rw [CanonState.withStrides, List.map_map, ← hfst]
  exact List.map_congr_left fun entry _ => hf entry.1 entry.2

theorem CanonState.map_dstStride_withStrides :
    (state.withStrides strides).axes.map CanonAxis.dstStride = strides := by
  rw [CanonState.withStrides, List.map_map]
  exact List.map_snd_zip hstrides.le

theorem CanonState.dstExtents_withStrides :
    (state.withStrides strides).dstExtents w = state.dstExtents w := by
  rw [dstExtents_eq, map_withStrides hstrides CanonAxis.extent fun _ _ => rfl, dstExtents_eq]
  rfl

end

theorem CanonState.withStrides_getElem? {state : CanonState} {strides : List SymExpr} {k : Nat} :
    (state.withStrides strides).axes[k]? = (state.axes[k]?).bind fun axis =>
      strides[k]?.map fun stride => { axis with dstStride := stride } := by
  rw [CanonState.withStrides, List.getElem?_map, List.zip, List.getElem?_zipWith]
  cases state.axes[k]? <;> cases strides[k]? <;> rfl

theorem CanonState.length_rowMajor (state : CanonState) :
    (canonicalRowMajorStrides w (state.dstExtents w)).length = state.axes.length := by
  rw [length_canonicalRowMajorStrides, length_dstExtents]

/-- Every axis has a row-major stride. -/
theorem CanonState.exists_stride {state : CanonState} {k : Nat} {axis : CanonAxis}
    (h : state.axes[k]? = some axis) :
    ∃ stride, (canonicalRowMajorStrides w (state.dstExtents w))[k]? = some stride := by
  have hlt := (List.getElem?_eq_some_iff.mp h).1
  rw [← length_rowMajor (w := w)] at hlt
  exact ⟨_, List.getElem?_eq_getElem hlt⟩

/-- The source side does not see the destination strides. -/
theorem CanonState.joinable_restride {state : CanonState} {k : Nat} :
    (state.restride w).joinable w k = state.joinable w k := by
  have hperm : (state.restride w).perm = state.perm := rfl
  unfold CanonState.joinable
  rw [CanonState.restride, withStrides_getElem?, withStrides_getElem?, ← CanonState.restride, hperm]
  cases houter : state.axes[k]? with
  | none => rfl
  | some outer =>
      obtain ⟨stride, hstride⟩ := exists_stride (w := w) houter
      rw [hstride]
      cases hinner : state.axes[k + 1]? with
      | none => rfl
      | some inner =>
          obtain ⟨next, hnext⟩ := exists_stride (w := w) hinner
          rw [hnext]
          cases state.perm[k]? <;> cases state.perm[k + 1]? <;> rfl

theorem widenExtent_of_free {k : Nat} {extent : SymExpr} {pads : List PadFillAttr}
    (h : ∀ pad ∈ pads, pad.dstAxis ≠ k) : widenExtent w k extent pads = extent := by
  unfold widenExtent
  induction pads with
  | nil => rfl
  | cons pad rest ih =>
      rw [List.forall_mem_cons] at h
      rw [List.foldl_cons, if_neg h.1]
      exact ih h.2

/-- With the row-major strides of the descriptor, what can be joined can be merged. -/
theorem CanonState.mergeable_restride {state : CanonState} {k : Nat} :
    (state.restride w).mergeable w k = state.joinable w k := by
  rw [CanonState.mergeable, joinable_restride]
  cases hjoin : state.joinable w k with
  | false => rfl
  | true =>
      obtain ⟨outer, inner, houter, hinner, -⟩ := merge_fields hjoin
      obtain ⟨stride, hstride⟩ := exists_stride (w := w) houter
      obtain ⟨next, hnext⟩ := exists_stride (w := w) hinner
      have hfree := (referenced_eq_false.mp (not_referenced hjoin).2).1
      have hextent : (state.dstExtents w)[k + 1]? = some inner.extent := by
        rw [CanonState.dstExtents, List.getElem?_map, List.getElem?_zipIdx, hinner]
        simp only [Option.map_some, Nat.zero_add, widenExtent_of_free hfree]
      have hproduct := canonicalRowMajorStrides_getElem? hnext hextent
      rw [hstride] at hproduct
      cases hproduct
      rw [CanonState.dstContiguous, CanonState.restride, withStrides_getElem?,
        withStrides_getElem?, houter, hinner, hstride, hnext]
      exact areLogicallyEqual_self _

/-- A second run merges further exactly when a pair was left that could be joined. -/
theorem CanonState.mergeLoop_restride_eq_iff {state : CanonState} {fuel : Nat}
    (hfuel : state.axes.length ≤ fuel) :
    (state.restride w).mergeLoop w fuel = state.restride w ↔
      ∀ k, state.joinable w k = false := by
  have hlength : (state.restride w).axes.length ≤ fuel :=
    (length_withStrides state.length_rowMajor).trans_le hfuel
  have hnone : (state.restride w).firstMergeable w = none ↔ ∀ k, state.joinable w k = false := by
    simp only [firstMergeable_eq_none, mergeable_restride]
  constructor
  · intro h
    rw [← hnone, ← h]
    exact mergeLoop_stops hlength
  · intro h
    exact mergeLoop_of_none (hnone.mpr h)

/-- Every round of the loop takes an axis. -/
theorem CanonState.mergeLoop_eq_of_length {fuel : Nat} {state : CanonState}
    (h : (state.mergeLoop w fuel).axes.length = state.axes.length) :
    state.mergeLoop w fuel = state := by
  cases fuel with
  | zero => rfl
  | succ fuel =>
      rw [mergeLoop_succ] at h ⊢
      cases hfirst : state.firstMergeable w with
      | none => rfl
      | some k =>
          rw [hfirst] at h
          have hjoin := joinable_of_first hfirst
          have hlt := joinable_lt hjoin
          have hle := length_mergeLoop_le (w := w) fuel (state.merge w k)
          rw [length_merge hjoin] at hle
          exact absurd (h.symm.trans_le hle) (by omega)

/-! ### Constraints -/

theorem mem_foldDivisibility {found entries : List DivisibilityAttr} {entry : DivisibilityAttr} :
    entry ∈ foldDivisibility w found entries →
      entry ∈ found ∨ ∃ old ∈ entries, entry = { old with expr := resimplify w old.expr } := by
  induction entries generalizing found with
  | nil => exact .inl
  | cons first rest ih =>
      intro h
      rcases ih h with hfound | ⟨old, hold, heq⟩
      · split at hfound
        · exact .inl hfound
        · rcases List.mem_append.mp hfound with hfound | hfirst
          · exact .inl hfound
          · exact .inr ⟨first, List.mem_cons_self, List.mem_singleton.mp hfirst⟩
      · exact .inr ⟨old, List.mem_cons_of_mem _ hold, heq⟩

theorem nodup_foldDivisibility {found entries : List DivisibilityAttr} (h : found.Nodup) :
    (foldDivisibility w found entries).Nodup := by
  induction entries generalizing found with
  | nil => exact h
  | cons first rest ih =>
      refine ih ?_
      split
      · exact h
      · rename_i hnew
        exact List.nodup_append_comm.mp (List.nodup_cons.mpr ⟨hnew, h⟩)

/-- Normal constraints, each new, are kept as they are. -/
theorem foldDivisibility_of_normal {found entries : List DivisibilityAttr}
    (hnodup : (found ++ entries).Nodup) (hnormal : ∀ entry ∈ entries, entry.expr.Normal w) :
    foldDivisibility w found entries = found ++ entries := by
  induction entries generalizing found with
  | nil => rw [List.append_nil]; rfl
  | cons first rest ih =>
      rw [List.forall_mem_cons] at hnormal
      have hnew : first ∉ found := fun hmem =>
        (List.nodup_append.mp hnodup).2.2 first hmem first List.mem_cons_self rfl
      rw [foldDivisibility, resimplify_of_normal hnormal.1, if_neg hnew, ih _ hnormal.2,
        List.append_assoc]
      · rfl
      · rwa [List.append_assoc]

/-- The constraints of the result: folded and sorted. -/
theorem sortOn_foldDivisibility (entries : List DivisibilityAttr) :
    sortOn divisibilityKey (foldDivisibility w []
      (sortOn divisibilityKey (foldDivisibility w [] entries))) =
      sortOn divisibilityKey (foldDivisibility w [] entries) := by
  have hnodup : (sortOn divisibilityKey (foldDivisibility w [] entries)).Nodup :=
    (List.perm_insertionSort _ _).nodup_iff.mpr (nodup_foldDivisibility List.nodup_nil)
  rw [foldDivisibility_of_normal (by rwa [List.nil_append]), List.nil_append,
    sortOn_of_pairwise (pairwise_sortOn _ _)]
  intro entry hentry
  rcases mem_foldDivisibility (mem_sortOn.mp hentry) with hmem | ⟨old, _, heq⟩
  · cases hmem
  · rw [heq]
    exact normal_resimplify _

/-! ### Idempotence -/

theorem resimplifyDesc_resimplifyDesc (desc : TensorDescAttr) :
    resimplifyDesc w (resimplifyDesc w desc) = resimplifyDesc w desc := by
  simp only [resimplifyDesc, List.map_map, Function.comp_def, resimplify_resimplify]

theorem PlanAttr.length_canonAxes (plan : PlanAttr) :
    (plan.canonAxes w).length = (plan.mergedState w).axes.length := by
  show (List.map _ (((plan.mergedState w).axes.zip (plan.canonStrides w)).zipIdx)).length = _
  rw [List.length_map, List.length_zipIdx, List.length_zip, length_canonStrides, Nat.min_self]

theorem PlanAttr.canonAxes_getElem? (plan : PlanAttr) (k : Nat) :
    (plan.canonAxes w)[k]? = ((plan.mergedState w).axes[k]?).bind fun axis =>
      (plan.canonStrides w)[k]?.map fun stride =>
        ⟨axisName k, axis.extent, axis.srcStride, stride⟩ := by
  show (List.map _ (((plan.mergedState w).axes.zip (plan.canonStrides w)).zipIdx))[k]? = _
  rw [List.getElem?_map, List.getElem?_zipIdx, List.zip, List.getElem?_zipWith, Nat.zero_add]
  cases (plan.mergedState w).axes[k]? <;> cases (plan.canonStrides w)[k]? <;> rfl

theorem PlanAttr.canonDst_of_not_foldNormal {plan : PlanAttr} (h : plan.foldNormal w = false) :
    plan.canonDst w = resimplifyDesc w plan.dst := if_neg (by simp [h])

section
variable {plan : PlanAttr} {inverse : AffineMap}
  (hfold : (plan.canonical w inverse).foldNormal w = plan.foldNormal w)
  (hmerged : (plan.canonical w inverse).mergedState w =
    (plan.mergedState w).withStrides (plan.canonStrides w))

include hmerged in
theorem PlanAttr.dstExtents_canonical :
    ((plan.canonical w inverse).mergedState w).dstExtents w =
    (plan.mergedState w).dstExtents w := by
  rw [hmerged, CanonState.dstExtents_withStrides plan.length_canonStrides]

include hfold hmerged

theorem PlanAttr.canonStrides_canonical :
    (plan.canonical w inverse).canonStrides w = plan.canonStrides w := by
  cases h : plan.foldNormal w with
  | true =>
      rw [PlanAttr.canonStrides, PlanAttr.canonStrides, hfold, h, if_pos rfl, if_pos rfl,
        dstExtents_canonical hmerged]
  | false =>
      rw [PlanAttr.canonStrides, hfold, h, hmerged]
      exact CanonState.map_dstStride_withStrides plan.length_canonStrides

theorem PlanAttr.canonDst_canonical : (plan.canonical w inverse).canonDst w = plan.canonDst w := by
  cases h : plan.foldNormal w with
  | true =>
      have hdst : (plan.canonical w inverse).dst = plan.canonDst w := rfl
      simp only [PlanAttr.canonDst, hfold, h, if_true, dstExtents_canonical hmerged, hdst,
        resimplify_resimplify]
  | false =>
      have hdst := canonDst_of_not_foldNormal h
      rw [canonDst_of_not_foldNormal (hfold.trans h)]
      show resimplifyDesc w (plan.canonDst w) = _
      rw [hdst, resimplifyDesc_resimplifyDesc]

theorem PlanAttr.canonAxes_canonical :
    (plan.canonical w inverse).canonAxes w = plan.canonAxes w := by
  apply List.ext_getElem?
  intro k
  rw [canonAxes_getElem?, canonAxes_getElem?, canonStrides_canonical hfold hmerged, hmerged,
    CanonState.withStrides_getElem?]
  cases (plan.mergedState w).axes[k]? with
  | none => rfl
  | some axis => cases (plan.canonStrides w)[k]? <;> rfl

/-- A second run that merges nothing rebuilds the same plan. -/
theorem PlanAttr.canonical_canonical :
    (plan.canonical w inverse).canonical w inverse = plan.canonical w inverse := by
  have hsrc : resimplifyDesc w (plan.canonical w inverse).src = resimplifyDesc w plan.src :=
    resimplifyDesc_resimplifyDesc plan.src
  have hdivisibility := sortOn_foldDivisibility (w := w) plan.divisibility
  have hcontiguity := CanonState.map_withStrides (plan.length_canonStrides (w := w))
    (fun axis => proveEqual axis.srcStride (.constant 1) == .proven) fun _ _ => rfl
  rw [PlanAttr.canonical, hsrc, canonDst_canonical hfold hmerged, canonAxes_canonical hfold hmerged,
    hmerged, hcontiguity]
  show _ = PlanAttr.canonical w plan inverse
  rw [PlanAttr.canonical]
  simp only [CanonState.withStrides, hdivisibility]

end

/-- Canonicalizing twice is canonicalizing once, exactly when the merge loop of the
    first run, if it runs at all, stops where no pair is kept apart by its
    destination strides alone. -/
theorem canonicalizePlan_twice {plan p : PlanAttr} (h : canonicalizePlan w plan = some p) :
    canonicalizePlan w p = some p ↔
      (plan.foldNormal w = true → ∀ k, (plan.mergedState w).joinable w k = false) := by
  obtain ⟨inverse, hinverse, heq, hverified⟩ := canonicalizePlan_eq_some.mp h
  rw [heq] at hverified ⊢
  have hfold := foldNormal_canonical hinverse hverified
  have hstate := plan.canonState_canonical (w := w) inverse
  -- the second run ends in the same plan as soon as its merge loop does nothing
  have hfixed (hmerged : (plan.canonical w inverse).mergedState w =
      (plan.mergedState w).withStrides (plan.canonStrides w)) :
      canonicalizePlan w (plan.canonical w inverse) = some (plan.canonical w inverse) := by
    refine canonicalizePlan_eq_some.mpr
      ⟨inverse, ?_, (PlanAttr.canonical_canonical hfold hmerged).symm, hverified⟩
    rw [PlanAttr.canonInverse, hfold, hmerged]
    rw [PlanAttr.canonInverse] at hinverse
    cases hcase : plan.foldNormal w with
    | true =>
        rw [hcase] at hinverse
        exact hinverse
    | false => rfl
  cases hcase : plan.foldNormal w with
  | false =>
      refine iff_of_true (hfixed ?_) (by simp)
      rw [PlanAttr.mergedState, hfold, hcase, if_neg (by simp), hstate]
  | true =>
      have hstrides : plan.canonStrides w =
          canonicalRowMajorStrides w ((plan.mergedState w).dstExtents w) := if_pos hcase
      have hlength : (plan.canonical w inverse).axes.length =
          (plan.mergedState w).axes.length := plan.length_canonAxes
      have hmerged : (plan.canonical w inverse).mergedState w =
          ((plan.mergedState w).restride w).mergeLoop w (plan.mergedState w).axes.length := by
        rw [PlanAttr.mergedState_eq (hfold.trans hcase), hstate, hstrides, hlength]
        rfl
      simp only [true_implies]
      rw [← CanonState.mergeLoop_restride_eq_iff le_rfl, ← hmerged]
      constructor
      · intro htwice
        obtain ⟨inverse', _, heq', _⟩ := canonicalizePlan_eq_some.mp htwice
        rw [hmerged]
        apply CanonState.mergeLoop_eq_of_length
        rw [← hmerged, CanonState.restride,
          CanonState.length_withStrides (plan.mergedState w).length_rowMajor, ← hlength,
          ← PlanAttr.length_canonAxes]
        exact (congrArg (fun plan : PlanAttr => plan.axes.length) heq').symm
      · intro hsame
        refine hfixed ?_
        rw [hsame, hstrides]
        rfl

end SymReloc
