import SymReloc.Reloc.Idempotence

/-!
# Merging axes in any order

The merge loop of `canonicalizePlan` takes the first pair of neighbours it can, and the extent of
a merged axis is written as the products were formed.  A second run reads the plan that the first
one wrote: it changes that plan exactly where two of its axes can still be joined
(`canonicalizePlan_idempotent_iff`).  On the plan of the first run it is enough that in no order
of merging its axes two neighbours are kept apart by the destination side alone.
-/

namespace SymReloc

open SymExpr

/-! ### What a plan says of neighbouring axes -/

namespace PlanAttr

variable (w : Int → Int) (plan : PlanAttr)

/-- No pad and no alignment names the axis. -/
def Free (k : Nat) : Prop :=
  (∀ pad ∈ plan.padFill, pad.dstAxis ≠ k) ∧ ∀ entry ∈ plan.alignment, entry.axis ≠ k

/-- The axes `k` and `k + 1` are free, and neighbours in the view. -/
def Neighbours (k : Nat) : Prop :=
  plan.Free k ∧ plan.Free (k + 1) ∧
    ∃ view, plan.perm[k]? = some view ∧ plan.perm[k + 1]? = some (view + 1)

/-- They are also contiguous on the source side. -/
def Joinable (k : Nat) : Prop :=
  plan.Neighbours k ∧ ∃ outer inner, plan.axes[k]? = some outer ∧
    plan.axes[k + 1]? = some inner ∧ isContiguousCompatible w outer inner = true

/-- On one side the axis `mid` is contiguous with the axes behind it up to `last`, merged into
    one of this extent. -/
def ContiguousOver (side : AxisInfoAttr → SymExpr) (mid last : Nat) (extent : SymExpr) : Prop :=
  ∃ outer inner, plan.axes[mid]? = some outer ∧ plan.axes[last]? = some inner ∧
    areLogicallyEqual (resimplify w (side outer))
      (getSimplifiedBinaryExpr w .mul (resimplify w (side inner)) extent) = true

/-- Some order of merging neighbours makes one axis of those from `first` to `last`, and writes
    its extent so. -/
inductive MergesTo : Nat → Nat → SymExpr → Prop
  | axis {k : Nat} {axis : AxisInfoAttr} (h : plan.axes[k]? = some axis) :
      MergesTo k k (resimplify w axis.extent)
  | merge {first mid last : Nat} {outer inner : SymExpr} (houter : MergesTo first mid outer)
      (hinner : MergesTo (mid + 1) last inner) (hnext : plan.Neighbours mid)
      (hsrc : plan.ContiguousOver w AxisInfoAttr.srcStride mid last inner)
      (hdst : plan.ContiguousOver w AxisInfoAttr.dstStride mid last inner) :
      MergesTo first last (getSimplifiedBinaryExpr w .mul outer inner)

/-- In no order of merging is an axis kept from the merged one behind it by the destination side
    alone. -/
def SidesAgree : Prop :=
  ∀ mid last extent, plan.MergesTo w (mid + 1) last extent → plan.Neighbours mid →
    plan.ContiguousOver w AxisInfoAttr.srcStride mid last extent →
      plan.ContiguousOver w AxisInfoAttr.dstStride mid last extent

variable {w : Int → Int} {plan : PlanAttr} {first last : Nat} {extent : SymExpr}

theorem MergesTo.le (h : plan.MergesTo w first last extent) : first ≤ last := by
  induction h with
  | axis => exact le_refl _
  | merge _ _ _ _ _ ihouter ihinner => omega

/-- Merged axes are neighbours. -/
theorem MergesTo.neighbours (h : plan.MergesTo w first last extent) {k : Nat} (hfirst : first ≤ k)
    (hlast : k < last) : plan.Neighbours k := by
  induction h with
  | axis => omega
  | @merge first mid last _ _ _ _ hnext _ _ ihouter ihinner =>
      rcases Nat.lt_trichotomy k mid with hlt | rfl | hgt
      · exact ihouter hfirst hlt
      · exact hnext
      · exact ihinner hgt hlast

theorem MergesTo.single {k : Nat} (h : plan.MergesTo w k k extent) :
    ∃ axis, plan.axes[k]? = some axis ∧ extent = resimplify w axis.extent := by
  cases h with
  | axis haxis => exact ⟨_, haxis, rfl⟩
  | merge houter hinner =>
      have := houter.le
      have := hinner.le
      omega

end PlanAttr

/-! ### The merge loop takes one of the orders -/

/-- The axes `k` and `k + 1` of a state are free, and neighbours in the view. -/
def CanonState.Neighbours (state : CanonState) (k : Nat) : Prop :=
  state.referenced k = false ∧ state.referenced (k + 1) = false ∧
    ∃ view, state.perm[k]? = some view ∧ state.perm[k + 1]? = some (view + 1)

theorem CanonState.joinable_iff {w : Int → Int} {state : CanonState} {k : Nat} :
    state.joinable w k = true ↔ state.Neighbours k ∧ ∃ outer inner,
      state.axes[k]? = some outer ∧ state.axes[k + 1]? = some inner ∧
        contiguousOn w outer inner true = true := by
  unfold CanonState.joinable CanonState.Neighbours
  constructor
  · intro h
    split at h
    · rename_i outer inner view next houter hinner hview hnext
      simp only [Bool.and_eq_true, Bool.not_eq_true', beq_iff_eq] at h
      obtain ⟨⟨⟨hfree, hfree'⟩, rfl⟩, hcontiguous⟩ := h
      exact ⟨⟨hfree, hfree', view, hview, hnext⟩, outer, inner, houter, hinner, hcontiguous⟩
    · cases h
  · rintro ⟨⟨hfree, hfree', view, hview, hnext⟩, outer, inner, houter, hinner, hcontiguous⟩
    simp [houter, hinner, hview, hnext, hfree, hfree', hcontiguous]

/-- Each axis of the state stands for a run of the plan's axes, up to `last`, of which it has the
    strides of the last. -/
structure CanonState.Collapses (w : Int → Int) (plan : PlanAttr) (last : Nat → Nat)
    (state : CanonState) : Prop where
  axes : ∀ k axis, state.axes[k]? = some axis → ∃ source, plan.axes[last k]? = some source ∧
    axis.srcStride = resimplify w source.srcStride ∧
    axis.dstStride = resimplify w source.dstStride
  runs : ∀ k axis, state.axes[k + 1]? = some axis →
    plan.MergesTo w (last k + 1) (last (k + 1)) axis.extent
  neighbours : ∀ k, state.Neighbours k → plan.Neighbours (last k)
  distinct : ∀ (i j : Nat) (view : Int), state.perm[i]? = some view →
    state.perm[j]? = some view → i = j

namespace CanonState

variable {w : Int → Int} {plan : PlanAttr} {last : Nat → Nat} {state : CanonState} {k : Nat}

theorem canonState_axes {k : Nat} {axis : CanonAxis}
    (h : (plan.canonState w).axes[k]? = some axis) :
    ∃ source, plan.axes[k]? = some source ∧ axis.extent = resimplify w source.extent ∧
      axis.srcStride = resimplify w source.srcStride ∧
      axis.dstStride = resimplify w source.dstStride := by
  rw [PlanAttr.canonState, List.getElem?_map, Option.map_eq_some_iff] at h
  obtain ⟨source, hsource, rfl⟩ := h
  exact ⟨source, hsource, rfl, rfl, rfl⟩

/-- A reference of the folded and sorted pads and alignments is one of the plan's. -/
theorem canonState_free {k : Nat} :
    (plan.canonState w).referenced k = false ↔ plan.Free k := by
  rw [referenced_eq_false]
  have hpads : (∀ pad ∈ (plan.canonState w).pads, pad.dstAxis ≠ k) ↔
      ∀ pad ∈ plan.padFill, pad.dstAxis ≠ k := by
    simp only [PlanAttr.canonState, PlanAttr.sortedPads, mem_sortOn, List.forall_mem_map]
  have halignments : (∀ entry ∈ (plan.canonState w).alignments, entry.axis ≠ k) ↔
      ∀ entry ∈ plan.alignment, entry.axis ≠ k := by
    simp only [PlanAttr.canonState, mem_sortOn]
  rw [hpads, halignments, PlanAttr.Free]

theorem canonState_neighbours {k : Nat} :
    (plan.canonState w).Neighbours k ↔ plan.Neighbours k := by
  unfold Neighbours PlanAttr.Neighbours
  rw [canonState_free, canonState_free]
  rfl

/-- Before the loop each axis stands for itself. -/
theorem collapses_canonState (hnodup : plan.perm.Nodup) :
    (plan.canonState w).Collapses w plan id := by
  constructor
  · intro k axis haxis
    obtain ⟨source, hsource, -, hsrc, hdst⟩ := canonState_axes haxis
    exact ⟨source, hsource, hsrc, hdst⟩
  · intro k axis haxis
    obtain ⟨source, hsource, hextent, -⟩ := canonState_axes haxis
    rw [hextent]
    exact .axis hsource
  · intro k h
    exact canonState_neighbours.mp h
  · intro i j view hi hj
    have hlt := (List.getElem?_eq_some_iff.mp hi).1
    exact (List.getElem?_inj hlt hnodup).mp (hi.trans hj.symm)

/-! ### One merge -/

/-- The position, before the merge at `k`, of the last axis that the position stands for. -/
def lift (k i : Nat) : Nat := if i < k then i else i + 1

/-- The positions are those of the views. -/
theorem merge_perm (h : state.joinable w k = true) : ∃ view, state.perm[k]? = some view ∧
    state.perm[k + 1]? = some (view + 1) ∧ (state.merge w k).perm =
      (state.perm.eraseIdx (k + 1)).map fun v => if view + 1 < v then v - 1 else v := by
  obtain ⟨⟨-, -, view, hview, hnext⟩, outer, inner, houter, hinner, -⟩ := joinable_iff.mp h
  exact ⟨view, hview, hnext, by simp only [CanonState.merge, houter, hinner, hview]⟩

/-- What a free axis of the merged state was before. -/
theorem free_of_merge (h : state.joinable w k = true) {i : Nat}
    (hfree : (state.merge w k).referenced i = false) :
    state.referenced (if i ≤ k then i else i + 1) = false := by
  obtain ⟨_, _, _, _, _, hpads, halignments⟩ := merge_fields h
  have hdrop : dropIndex k (if i ≤ k then i else i + 1) = i := by
    unfold dropIndex
    split_ifs <;> omega
  rw [referenced_eq_false, hpads, halignments, List.forall_mem_map, List.forall_mem_map] at hfree
  rw [referenced_eq_false]
  constructor
  · intro pad hpad heq
    exact hfree.1 pad hpad (by rw [heq, hdrop])
  · intro entry hentry heq
    exact hfree.2 entry hentry (by rw [heq, hdrop])

theorem perm_of_merge (h : state.joinable w k = true) {view v : Int} {i : Nat}
    (hview : state.perm[k]? = some view) (hv : (state.merge w k).perm[i]? = some v) :
    ∃ old, state.perm[if i ≤ k then i else i + 1]? = some old ∧
      v = if view + 1 < old then old - 1 else old := by
  obtain ⟨view', hview', -, hperm⟩ := merge_perm h
  obtain rfl : view = view' := Option.some.inj (hview.symm.trans hview')
  rw [hperm, List.getElem?_map, List.getElem?_eraseIdx, Option.map_eq_some_iff] at hv
  obtain ⟨old, hold, rfl⟩ := hv
  refine ⟨old, ?_, rfl⟩
  by_cases hle : i ≤ k
  · rwa [if_pos (by omega)] at hold ⊢
  · rwa [if_neg (by omega)] at hold ⊢

/-- Neighbours after the merge were neighbours before it. -/
theorem Collapses.neighbours_of_merge (hstate : state.Collapses w plan last)
    (h : state.joinable w k = true) {i : Nat} (hnext : (state.merge w k).Neighbours i) :
    state.Neighbours (lift k i) := by
  obtain ⟨hfree, hfree', v, hv, hv'⟩ := hnext
  have hbefore := free_of_merge h hfree
  have hbefore' := free_of_merge h hfree'
  obtain ⟨view, hview, hremoved, -⟩ := merge_perm h
  obtain ⟨old, hold, rfl⟩ := perm_of_merge h hview hv
  obtain ⟨next, hold', hshift⟩ := perm_of_merge h hview hv'
  -- no other axis has the view of a merged one
  have hnot : ∀ (j : Nat) (value : Int), state.perm[j]? = some value →
      (j ≠ k → value ≠ view) ∧ (j ≠ k + 1 → value ≠ view + 1) := by
    intro j value hj
    constructor
    · rintro hne rfl
      exact hne (hstate.distinct j k value hj hview)
    · rintro hne rfl
      exact hne (hstate.distinct j (k + 1) _ hj hremoved)
  have hplace := hnot _ _ hold
  have hplace' := hnot _ _ hold'
  unfold lift
  rcases Nat.lt_trichotomy i k with hlt | rfl | hgt
  · rw [if_pos (by omega)] at hbefore hbefore' hold hold'
    rw [if_pos (by omega)] at hplace hplace'
    rw [if_pos hlt]
    refine ⟨hbefore, hbefore', old, hold, ?_⟩
    rw [hold']
    split_ifs at hshift <;> congr 1 <;> omega
  · rw [if_pos (le_refl i)] at hold
    rw [if_neg (by omega)] at hbefore' hold' hplace'
    obtain rfl : old = view := Option.some.inj (hold.symm.trans hview)
    rw [if_neg (lt_irrefl i)]
    refine ⟨(not_referenced h).2, hbefore', old + 1, hremoved, ?_⟩
    rw [hold']
    split_ifs at hshift <;> congr 1 <;> omega
  · rw [if_neg (by omega)] at hbefore hbefore' hold hold'
    rw [if_neg (by omega)] at hplace hplace'
    rw [if_neg (by omega)]
    refine ⟨hbefore, hbefore', old, hold, ?_⟩
    rw [hold']
    split_ifs at hshift <;> congr 1 <;> omega

theorem Collapses.distinct_of_merge (hstate : state.Collapses w plan last)
    (h : state.joinable w k = true) {i j : Nat} {v : Int}
    (hi : (state.merge w k).perm[i]? = some v) (hj : (state.merge w k).perm[j]? = some v) :
    i = j := by
  obtain ⟨view, hview, hremoved, -⟩ := merge_perm h
  obtain ⟨old, hold, rfl⟩ := perm_of_merge h hview hi
  obtain ⟨other, hother, heq⟩ := perm_of_merge h hview hj
  have hkept : ∀ (n : Nat) (value : Int),
      state.perm[if n ≤ k then n else n + 1]? = some value → value ≠ view + 1 := by
    rintro n value hn rfl
    have hplace := hstate.distinct _ _ _ hn hremoved
    split_ifs at hplace <;> omega
  have hne := hkept i old hold
  have hne' := hkept j other hother
  obtain rfl : old = other := by split_ifs at heq <;> omega
  have hplace := hstate.distinct _ _ _ hold hother
  split_ifs at hplace <;> omega

theorem axis_of_merge (h : state.joinable w k = true) {i : Nat} {axis : CanonAxis}
    (haxis : (state.merge w k).axes[i]? = some axis) :
    (i ≠ k → state.axes[lift k i]? = some axis) ∧
      (i = k → ∃ outer inner, state.axes[k]? = some outer ∧ state.axes[k + 1]? = some inner ∧
        axis = { extent := getSimplifiedBinaryExpr w .mul outer.extent inner.extent
                 srcStride := inner.srcStride
                 dstStride := inner.dstStride }) := by
  obtain ⟨outer, inner, houter, hinner, haxes, -, -⟩ := merge_fields h
  rw [haxes, List.getElem?_eraseIdx, List.getElem?_set] at haxis
  constructor
  · intro hne
    unfold lift
    by_cases hlt : i < k
    · rw [if_pos (by omega), if_neg (Ne.symm hne)] at haxis
      rwa [if_pos hlt]
    · rw [if_neg (by omega), List.getElem?_set, if_neg (by omega)] at haxis
      rwa [if_neg hlt]
  · rintro rfl
    have hlt := (List.getElem?_eq_some_iff.mp houter).1
    rw [if_pos (by omega), if_pos rfl, if_pos hlt, Option.some.injEq] at haxis
    exact ⟨outer, inner, houter, hinner, haxis.symm⟩

/-- Both sides of two neighbours, as the plan has them. -/
theorem Collapses.contiguousOver (hstate : state.Collapses w plan last) {outer inner : CanonAxis}
    (houter : state.axes[k]? = some outer) (hinner : state.axes[k + 1]? = some inner) :
    (contiguousOn w outer inner true = true ↔
      plan.ContiguousOver w AxisInfoAttr.srcStride (last k) (last (k + 1)) inner.extent) ∧
    (contiguousOn w outer inner false = true ↔
      plan.ContiguousOver w AxisInfoAttr.dstStride (last k) (last (k + 1)) inner.extent) := by
  obtain ⟨source, hsource, hsrc, hdst⟩ := hstate.axes k outer houter
  obtain ⟨behind, hbehind, hsrc', hdst'⟩ := hstate.axes (k + 1) inner hinner
  simp only [contiguousOn, isContiguousCompatible, if_true, Bool.false_eq_true, if_false, hsrc,
    hdst, hsrc', hdst', PlanAttr.ContiguousOver, hsource, hbehind, Option.some.injEq,
    exists_eq_left', exists_and_left, and_self]

/-- A merge of the loop is a merge of two runs. -/
theorem Collapses.merge (hstate : state.Collapses w plan last)
    (hmerge : state.mergeable w k = true) :
    (state.merge w k).Collapses w plan fun i => last (lift k i) := by
  obtain ⟨hjoin, hdstContiguous⟩ := Bool.and_eq_true_iff.mp hmerge
  obtain ⟨hnext, outer, inner, houter, hinner, hsrcContiguous⟩ := joinable_iff.mp hjoin
  obtain ⟨hsrc, hdst⟩ := hstate.contiguousOver houter hinner
  simp only [CanonState.dstContiguous, houter, hinner] at hdstContiguous
  have hlift : lift k k = k + 1 := if_neg (lt_irrefl k)
  refine ⟨fun i axis haxis => ?_, fun i axis haxis => ?_,
    fun i hi => hstate.neighbours _ (hstate.neighbours_of_merge hjoin hi),
    fun i j view => hstate.distinct_of_merge hjoin⟩
  · obtain ⟨hother, hmerged⟩ := axis_of_merge hjoin haxis
    by_cases hk : i = k
    · obtain ⟨_, behind, -, hbehind, rfl⟩ := hmerged hk
      rw [hk, hlift]
      exact hstate.axes (k + 1) behind hbehind
    · exact hstate.axes _ axis (hother hk)
  · obtain ⟨hother, hmerged⟩ := axis_of_merge hjoin haxis
    rcases Nat.lt_trichotomy (i + 1) k with hlt | hk | hgt
    · have hold := hother (by omega)
      simp only [lift, if_pos hlt, if_pos (show i < k by omega)] at hold ⊢
      exact hstate.runs i axis hold
    · obtain ⟨outer', inner', houter', hinner', rfl⟩ := hmerged hk
      rw [houter, Option.some.injEq] at houter'
      rw [hinner, Option.some.injEq] at hinner'
      subst houter' hinner'
      have hrun := hstate.runs i outer (by rw [hk]; exact houter)
      rw [hk, hlift]
      rw [hk] at hrun
      simp only [lift, if_pos (show i < k by omega)]
      exact .merge hrun (hstate.runs k inner hinner) (hstate.neighbours k hnext)
        (hsrc.mp hsrcContiguous) (hdst.mp hdstContiguous)
    · have hold := hother (by omega)
      simp only [lift, if_neg (show ¬ i + 1 < k by omega), if_neg (show ¬ i < k by omega)]
        at hold ⊢
      exact hstate.runs (i + 1) axis hold

theorem Collapses.mergeLoop {fuel : Nat} (hstate : state.Collapses w plan last) :
    ∃ last, (state.mergeLoop w fuel).Collapses w plan last := by
  induction fuel generalizing state last with
  | zero => exact ⟨last, hstate⟩
  | succ fuel ih =>
      rw [mergeLoop_succ]
      cases hfirst : state.firstMergeable w with
      | none => exact ⟨last, hstate⟩
      | some k => exact ih (hstate.merge (mergeable_of_first hfirst))

/-- Where the sides agree, the loop leaves no pair that can be joined. -/
theorem Collapses.not_joinable (hstate : state.Collapses w plan last) (hagree : plan.SidesAgree w)
    (hstop : state.firstMergeable w = none) (k : Nat) : state.joinable w k = false := by
  cases hjoin : state.joinable w k with
  | false => rfl
  | true =>
      obtain ⟨hnext, outer, inner, houter, hinner, hcontiguous⟩ := joinable_iff.mp hjoin
      obtain ⟨hsrc, hdst⟩ := hstate.contiguousOver houter hinner
      have hsides := hagree _ _ _ (hstate.runs k inner hinner) (hstate.neighbours k hnext)
        (hsrc.mp hcontiguous)
      have hmerge := firstMergeable_eq_none.mp hstop k
      simp only [CanonState.mergeable, hjoin, Bool.true_and, CanonState.dstContiguous, houter,
        hinner, hdst.mpr hsides, Bool.true_eq_false] at hmerge

end CanonState

/-! ### Idempotence -/

section

variable {w : Int → Int} {plan p : PlanAttr}

/-- What can be joined in the plan that a run wrote is what its merge loop left joinable. -/
theorem PlanAttr.joinable_canonical (plan : PlanAttr) (inverse : AffineMap) (k : Nat) :
    (plan.canonical w inverse).Joinable w k ↔ (plan.mergedState w).joinable w k = true := by
  have hneighbours : (plan.canonical w inverse).Neighbours k ↔
      (plan.mergedState w).Neighbours k := by
    unfold CanonState.Neighbours
    rw [CanonState.referenced_eq_false, CanonState.referenced_eq_false]
    rfl
  have haxes : (plan.canonical w inverse).axes = plan.canonAxes w := rfl
  rw [PlanAttr.Joinable, hneighbours, CanonState.joinable_iff, haxes]
  refine and_congr_right fun _ => ?_
  constructor
  · rintro ⟨outer, inner, houter, hinner, hcontiguous⟩
    rw [canonAxes_getElem?, Option.bind_eq_some_iff] at houter hinner
    obtain ⟨outer, houter, hmade⟩ := houter
    obtain ⟨inner, hinner, hmade'⟩ := hinner
    obtain ⟨_, -, rfl⟩ := Option.map_eq_some_iff.mp hmade
    obtain ⟨_, -, rfl⟩ := Option.map_eq_some_iff.mp hmade'
    exact ⟨outer, inner, houter, hinner, hcontiguous⟩
  · rintro ⟨outer, inner, houter, hinner, hcontiguous⟩
    have hstride {k : Nat} {axis : CanonAxis} (h : (plan.mergedState w).axes[k]? = some axis) :
        ∃ stride, (plan.canonAxes w)[k]? =
          some ⟨axisName k, axis.extent, axis.srcStride, stride⟩ := by
      have hlt := (List.getElem?_eq_some_iff.mp h).1
      rw [← plan.length_canonStrides] at hlt
      rw [canonAxes_getElem?, h, Option.bind_some, List.getElem?_eq_getElem hlt]
      exact ⟨_, rfl⟩
    obtain ⟨_, hmade⟩ := hstride houter
    obtain ⟨_, hmade'⟩ := hstride hinner
    exact ⟨_, _, hmade, hmade', hcontiguous⟩

end

/-- `[a, p, q]` with its first axis moved behind the others. -/
def rotatedPlan : PlanAttr :=
  let a : SymExpr := .symbol [97]
  let p : SymExpr := .symbol [112]
  let q : SymExpr := .symbol [113]
  let mul : SymExpr → SymExpr → SymExpr := .binary .mul
  { src := ⟨[a, p, q], [], .constant 0, .f32, .inl rfl, MlirType.isTensorElement_f32⟩
    dst := ⟨[p, q, a], [], .constant 0, .f32, .inl rfl, MlirType.isTensorElement_f32⟩
    perm := [1, 2, 0]
    axes := [⟨[112], p, q, mul a q⟩, ⟨[113], q, .constant 1, a⟩, ⟨[97], a, mul q p, .constant 1⟩]
    padFill := []
    divisibility := []
    alignment := []
    contiguity := []
    noCopy := false
    runtimePadCheck := false
    inverse := ⟨3, 0, [.dim 2, .dim 0, .dim 1], by decide⟩ }

theorem rotatedPlan_neighbours {k : Nat} (h : rotatedPlan.Neighbours k) : k = 0 := by
  obtain ⟨-, -, view, hview, hnext⟩ := h
  match k with
  | 0 => rfl
  | 1 =>
      cases hview
      cases hnext
  | k + 2 => cases hnext

/-- A view of `[a, (p * q) * r]` as `[a, p, q, r]`, the stride of `a` written as
    `(p * q) * r` on the source side and as `(r * q) * p` on the destination side. -/
def splitPlan : PlanAttr :=
  let a : SymExpr := .symbol [97]
  let p : SymExpr := .symbol [112]
  let q : SymExpr := .symbol [113]
  let r : SymExpr := .symbol [114]
  let mul : SymExpr → SymExpr → SymExpr := .binary .mul
  { src := ⟨[a, mul (mul p q) r], [], .constant 0, .f32, .inl rfl, MlirType.isTensorElement_f32⟩
    dst := ⟨[a, p, q, r], [], .constant 0, .f32, .inl rfl, MlirType.isTensorElement_f32⟩
    perm := [0, 1, 2, 3]
    axes := [⟨[97], a, mul (mul p q) r, mul (mul r q) p⟩, ⟨[112], p, mul r q, mul r q⟩,
      ⟨[113], q, r, r⟩, ⟨[114], r, .constant 1, .constant 1⟩]
    padFill := []
    divisibility := []
    alignment := []
    contiguity := []
    noCopy := false
    runtimePadCheck := false
    inverse := ⟨4, 0, [.dim 0, .dim 1, .dim 2, .dim 3], by decide⟩ }

end SymReloc
