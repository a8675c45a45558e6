import SymReloc.Reloc.Idempotence
import SymReloc.Sym.WordEval
import SymReloc.Walk

/-!
# Canonicalization and the meaning of a plan

Under symbol values a plan is a walk over padded axes.  Folding constants, sorting,
merging and renumbering keep the walk; the destination strides do not survive where
the plan is in fold-normal form, since there the canonical plan has those of a packed
destination.  So the canonical plan means the same exactly when the plan's own axes
would with packed strides.
-/

namespace SymReloc

open SymExpr

/-! ### Evaluation of a plan -/

section
variable (ev : SymExpr → Option Int)

/-- The pad of an axis: the last entry that names it, as binding takes it. -/
def padAt (pads : List PadFillAttr) (k : Nat) : Option PadFillAttr :=
  (pads.filter fun pad => pad.dstAxis = k).getLast?

def evalPad (pad : PadFillAttr) : Option (Walk.Pad TypedAttr) :=
  (ev pad.lo).bind fun lo => (ev pad.hi).map fun hi => ⟨lo, hi, pad.value⟩

def evalAxis (pads : List PadFillAttr) (k : Nat) (axis : CanonAxis) :
    Option (Walk.Axis TypedAttr) :=
  (ev axis.extent).bind fun extent => (ev axis.srcStride).bind fun srcStride =>
    (ev axis.dstStride).bind fun dstStride =>
      match padAt pads k with
      | none => some ⟨extent, srcStride, dstStride, none⟩
      | some pad => (evalPad ev pad).map fun pad => ⟨extent, srcStride, dstStride, some pad⟩

def evalAxes (pads : List PadFillAttr) : Nat → List CanonAxis → Option (List (Walk.Axis TypedAttr))
  | _, [] => some []
  | k, axis :: axes =>
      (evalAxis ev pads k axis).bind fun value =>
        (evalAxes pads (k + 1) axes).map fun values => value :: values

end

def AxisInfoAttr.canon (axis : AxisInfoAttr) : CanonAxis :=
  ⟨axis.extent, axis.srcStride, axis.dstStride⟩

/-- What binding checks of the values: every axis has an element, no pad is negative,
    and neither the number of cells nor a source offset overflows. -/
def Admissible (axes : List (Walk.Axis TypedAttr)) : Prop :=
  Walk.Proper axes ∧ FitsI64 (Walk.size axes) ∧
    ∀ cell ∈ Walk.walk axes, cell.fills = [] → FitsI64 cell.src

instance (axes : List (Walk.Axis TypedAttr)) : Decidable (Admissible axes) := by
  unfold Admissible
  infer_instance

/-- The walk of a plan under symbol values, if it evaluates without overflow. -/
def PlanAttr.evaluate (σ : Name → Int) (plan : PlanAttr) : Option (Walk.Layout TypedAttr) := do
  let srcOffset ← plan.src.offset.evalChecked σ
  let dstOffset ← plan.dst.offset.evalChecked σ
  let axes ← evalAxes (evalChecked σ) plan.padFill 0 (plan.axes.map AxisInfoAttr.canon)
  if Admissible axes then some { srcOffset, dstOffset, axes } else none

theorem PlanAttr.evaluate_eq_some {σ : Name → Int} {plan : PlanAttr}
    {layout : Walk.Layout TypedAttr} :
    plan.evaluate σ = some layout ↔
      plan.src.offset.evalChecked σ = some layout.srcOffset ∧
      plan.dst.offset.evalChecked σ = some layout.dstOffset ∧
      evalAxes (evalChecked σ) plan.padFill 0 (plan.axes.map AxisInfoAttr.canon) =
        some layout.axes ∧ Admissible layout.axes := by
  simp only [PlanAttr.evaluate, Option.bind_eq_bind, Option.bind_eq_some_iff]
  constructor
  · intro ⟨srcOffset, hsrc, dstOffset, hdst, axes, haxes, h⟩
    split at h
    · rename_i hadmissible
      cases h
      exact ⟨hsrc, hdst, haxes, hadmissible⟩
    · cases h
  · intro ⟨hsrc, hdst, haxes, hadmissible⟩
    exact ⟨_, hsrc, _, hdst, _, haxes, if_pos hadmissible⟩

/-! ### Axes one by one -/

section
variable {ev ev' : SymExpr → Option Int} {pads pads' : List PadFillAttr} {k : Nat}
  {axis axis' : CanonAxis} {axes : List CanonAxis} {value : Walk.Axis TypedAttr}
  {values : List (Walk.Axis TypedAttr)}

theorem evalPad_eq_some {pad : PadFillAttr} {value : Walk.Pad TypedAttr} :
    evalPad ev pad = some value ↔
      ev pad.lo = some value.lo ∧ ev pad.hi = some value.hi ∧ pad.value = value.value := by
  simp only [evalPad, Option.bind_eq_some_iff, Option.map_eq_some_iff]
  constructor
  · rintro ⟨lo, hlo, hi, hhi, rfl⟩
    exact ⟨hlo, hhi, rfl⟩
  · intro ⟨hlo, hhi, hvalue⟩
    exact ⟨_, hlo, _, hhi, by rw [hvalue]⟩

/-- The value of an axis: each field by itself, and the pad where there is one. -/
theorem evalAxis_eq_some : evalAxis ev pads k axis = some value ↔
    ev axis.extent = some value.extent ∧ ev axis.srcStride = some value.srcStride ∧
      ev axis.dstStride = some value.dstStride ∧
      (padAt pads k).map (evalPad ev) = value.pad.map some := by
  simp only [evalAxis, Option.bind_eq_some_iff]
  constructor
  · rintro ⟨extent, hextent, srcStride, hsrc, dstStride, hdst, h⟩
    cases hpad : padAt pads k with
    | none =>
        rw [hpad] at h
        cases h
        exact ⟨hextent, hsrc, hdst, rfl⟩
    | some pad =>
        rw [hpad] at h
        obtain ⟨padValue, hvalue, rfl⟩ := Option.map_eq_some_iff.mp h
        exact ⟨hextent, hsrc, hdst, congrArg some hvalue⟩
  · intro ⟨hextent, hsrc, hdst, h⟩
    refine ⟨_, hextent, _, hsrc, _, hdst, ?_⟩
    cases hpad : padAt pads k with
    | none =>
        rw [hpad] at h
        cases hvalue : value.pad with
        | none => rw [← hvalue]
        | some padValue =>
            rw [hvalue] at h
            cases h
    | some pad =>
        rw [hpad] at h
        cases hvalue : value.pad with
        | none =>
            rw [hvalue] at h
            cases h
        | some padValue =>
            rw [hvalue, Option.map_some, Option.map_some, Option.some.injEq] at h
            refine Option.map_eq_some_iff.mpr ⟨padValue, h, ?_⟩
            rw [← hvalue]

theorem evalAxes_eq_some : evalAxes ev pads k axes = some values ↔
    values.length = axes.length ∧ ∀ (j : Nat) (axis : CanonAxis), axes[j]? = some axis →
      ∃ value, values[j]? = some value ∧ evalAxis ev pads (k + j) axis = some value := by
  induction axes generalizing k values with
  | nil =>
      simp only [evalAxes, Option.some.injEq, List.length_nil, List.length_eq_zero_iff,
        List.getElem?_nil, reduceCtorEq, false_implies, implies_true, and_true]
      exact eq_comm
  | cons head axes ih =>
      simp only [evalAxes, Option.bind_eq_some_iff, Option.map_eq_some_iff]
      constructor
      · rintro ⟨value, hvalue, rest, hrest, rfl⟩
        obtain ⟨hlength, h⟩ := ih.mp hrest
        refine ⟨by rw [List.length_cons, List.length_cons, hlength], fun j axis haxis => ?_⟩
        cases j with
        | zero =>
            cases haxis
            exact ⟨value, rfl, hvalue⟩
        | succ j =>
            have hindex : k + (j + 1) = k + 1 + j := by omega
            rw [hindex]
            exact h j axis haxis
      · intro ⟨hlength, h⟩
        cases values with
        | nil => cases hlength
        | cons value rest =>
            obtain ⟨first, hfirst, hvalue⟩ := h 0 head rfl
            cases hfirst
            refine ⟨value, hvalue, rest, ih.mpr ⟨?_, fun j axis haxis => ?_⟩, rfl⟩
            · simpa using hlength
            · have hindex : k + 1 + j = k + (j + 1) := by omega
              rw [hindex]
              exact h (j + 1) axis haxis

/-- An evaluation that agrees where another is defined gives the same values. -/
theorem evalAxis_mono (hev : ∀ expr value, ev expr = some value → ev' expr = some value)
    (h : evalAxis ev pads k axis = some value) : evalAxis ev' pads k axis = some value := by
  rw [evalAxis_eq_some] at h ⊢
  obtain ⟨hextent, hsrc, hdst, hpad⟩ := h
  refine ⟨hev _ _ hextent, hev _ _ hsrc, hev _ _ hdst, ?_⟩
  rw [← hpad]
  cases hat : padAt pads k with
  | none => rfl
  | some pad =>
      cases hvalue : value.pad with
      | none =>
          rw [hat, hvalue] at hpad
          cases hpad
      | some padValue =>
          rw [hat, hvalue, Option.map_some, Option.map_some, Option.some.injEq] at hpad
          have hsame := evalPad_eq_some.mp hpad
          rw [Option.map_some, Option.map_some, hpad,
            evalPad_eq_some.mpr ⟨hev _ _ hsame.1, hev _ _ hsame.2.1, hsame.2.2⟩]

theorem evalAxes_mono (hev : ∀ expr value, ev expr = some value → ev' expr = some value)
    (h : evalAxes ev pads k axes = some values) : evalAxes ev' pads k axes = some values := by
  rw [evalAxes_eq_some] at h ⊢
  refine ⟨h.1, fun j axis haxis => ?_⟩
  obtain ⟨value, hvalue, haxis⟩ := h.2 j axis haxis
  exact ⟨value, hvalue, evalAxis_mono hev haxis⟩

end

/-! ### Folded and sorted -/

theorem wordRefines_resimplify {σ : Name → Int} (expr : SymExpr) :
    WordRefines σ expr (resimplify wrap64 expr) := by
  induction expr with
  | symbol name => exact fun _ h => h
  | constant value => exact fun _ h => h
  | binary opcode lhs rhs ihl ihr =>
      intro value h
      obtain ⟨l, r, exact, hl, hr, happly, rfl⟩ := evalWord_binary.mp h
      exact getSimplifiedBinaryExpr_evalWord (ihl _ hl) (ihr _ hr) happly

section
variable {α κ : Type} [LinearOrder κ] {key : α → κ}

theorem filter_orderedInsert (c : κ) (value : α) (values : List α) :
    (values.orderedInsert (fun a b => key a ≤ key b) value).filter (fun a => key a = c) =
      (value :: values).filter fun a => key a = c := by
  induction values with
  | nil => rfl
  | cons head rest ih =>
      rw [List.orderedInsert]
      split
      · rfl
      · rename_i hlt
        -- an entry the new one goes behind has another key
        by_cases hvalue : key value = c
        · have hhead : key head ≠ c := fun heq => hlt (le_of_eq (hvalue.trans heq.symm))
          simp only [List.filter_cons, hvalue, hhead, decide_true, decide_false, if_true] at ih ⊢
          exact ih
        · simp only [List.filter_cons, hvalue, decide_false] at ih ⊢
          rw [ih]
          rfl

/-- Sorting keeps the order of entries with one key. -/
theorem filter_sortOn (c : κ) (values : List α) :
    (sortOn key values).filter (fun a => key a = c) = values.filter fun a => key a = c := by
  induction values with
  | nil => rfl
  | cons head rest ih =>
      refine (filter_orderedInsert c head (sortOn key rest)).trans ?_
      rw [List.filter_cons, ih, List.filter_cons]

end

theorem padAt_map (f : PadFillAttr → PadFillAttr) (hf : ∀ pad, (f pad).dstAxis = pad.dstAxis)
    (pads : List PadFillAttr) (k : Nat) : padAt (pads.map f) k = (padAt pads k).map f := by
  simp only [padAt, List.filter_map, List.getLast?_map]
  simp only [Function.comp_def, hf]

theorem padAt_sortedPads {w : Int → Int} (plan : PlanAttr) (k : Nat) :
    padAt (plan.sortedPads w) k = (padAt plan.padFill k).map fun pad =>
      { pad with lo := resimplify w pad.lo, hi := resimplify w pad.hi } := by
  rw [← padAt_map (fun pad =>
    { pad with lo := resimplify w pad.lo, hi := resimplify w pad.hi }) fun _ => rfl]
  exact congrArg List.getLast? (filter_sortOn k _)

/-- What the state's expressions denote, in signed words. -/
def CanonState.Denotes (σ : Name → Int) (state : CanonState)
    (values : List (Walk.Axis TypedAttr)) : Prop :=
  evalAxes (evalWord σ) state.pads 0 state.axes = some values

variable {σ : Name → Int} {plan : PlanAttr} {layout : Walk.Layout TypedAttr} {state : CanonState}
  {values : List (Walk.Axis TypedAttr)} {k : Nat}

/-- The state before the merge loop denotes the walk of the plan. -/
theorem denotes_canonState (h : plan.evaluate σ = some layout) :
    (plan.canonState wrap64).Denotes σ layout.axes := by
  have hword := evalAxes_mono (fun _ _ => evalWord_of_evalChecked)
    (PlanAttr.evaluate_eq_some.mp h).2.2.1
  rw [CanonState.Denotes, evalAxes_eq_some]
  rw [evalAxes_eq_some] at hword
  obtain ⟨hlength, hvalues⟩ := hword
  refine ⟨by simpa [PlanAttr.canonState] using hlength, fun j axis haxis => ?_⟩
  rw [PlanAttr.canonState, List.getElem?_map] at haxis
  obtain ⟨old, hold, rfl⟩ := Option.map_eq_some_iff.mp haxis
  obtain ⟨value, hvalue, hold⟩ := hvalues j old.canon (by rw [List.getElem?_map, hold]; rfl)
  refine ⟨value, hvalue, ?_⟩
  rw [evalAxis_eq_some] at hold ⊢
  obtain ⟨hextent, hsrc, hdst, hpad⟩ := hold
  refine ⟨wordRefines_resimplify _ _ hextent, wordRefines_resimplify _ _ hsrc,
    wordRefines_resimplify _ _ hdst, ?_⟩
  rw [← hpad]
  show (padAt (plan.sortedPads wrap64) (0 + j)).map _ = _
  rw [padAt_sortedPads]
  cases hat : padAt plan.padFill (0 + j) with
  | none => rfl
  | some pad =>
      cases hcase : value.pad with
      | none =>
          rw [hat, hcase] at hpad
          cases hpad
      | some padValue =>
          rw [hat, hcase, Option.map_some, Option.map_some, Option.some.injEq] at hpad
          obtain ⟨hlo, hhi, hfill⟩ := evalPad_eq_some.mp hpad
          rw [Option.map_some, Option.map_some, Option.map_some, hpad]
          exact congrArg some (evalPad_eq_some.mpr
            ⟨wordRefines_resimplify _ _ hlo, wordRefines_resimplify _ _ hhi, hfill⟩)

/-! ### Merging -/

/-- No pad names the axis. -/
theorem padAt_eq_none {pads : List PadFillAttr} (h : ∀ pad ∈ pads, pad.dstAxis ≠ k) :
    padAt pads k = none := by
  rw [padAt, List.filter_eq_nil_iff.mpr fun pad hpad => by simpa using h pad hpad]
  rfl

/-- Behind a merged pair the pads move up one axis. -/
theorem padAt_dropIndex {pads : List PadFillAttr} (hk : ∀ pad ∈ pads, pad.dstAxis ≠ k)
    (hk' : ∀ pad ∈ pads, pad.dstAxis ≠ k + 1) (j : Nat) :
    padAt (pads.map fun pad => { pad with dstAxis := dropIndex k pad.dstAxis }) j =
      (padAt pads (if j ≤ k then j else j + 1)).map fun pad =>
        { pad with dstAxis := dropIndex k pad.dstAxis } := by
  simp only [padAt, List.filter_map, List.getLast?_map]
  refine congrArg (fun found => Option.map _ (List.getLast? found)) ?_
  refine List.filter_congr fun pad hpad => ?_
  have hne := hk pad hpad
  have hne' := hk' pad hpad
  simp only [Function.comp_apply, dropIndex]
  rw [decide_eq_decide]
  split_ifs <;> omega

theorem evalPad_dropIndex {ev : SymExpr → Option Int} (found : Option PadFillAttr) :
    (found.map fun pad => { pad with dstAxis := dropIndex k pad.dstAxis }).map (evalPad ev) =
      found.map (evalPad ev) := by
  cases found <;> rfl

/-- The pair a merge takes, in the axes the state denotes. -/
theorem CanonState.Denotes.unpadded (h : state.Denotes σ values)
    (hjoin : state.joinable wrap64 k = true) :
    ∃ outer inner, Walk.Unpadded values k outer inner ∧
      outer.srcStride = wrap64 (inner.srcStride * inner.extent) := by
  obtain ⟨outer, inner, houter, hinner, -⟩ := merge_fields hjoin
  obtain ⟨hfree, hfree'⟩ := not_referenced hjoin
  obtain ⟨-, hvalues⟩ := evalAxes_eq_some.mp h
  simp only [Nat.zero_add] at hvalues
  obtain ⟨outerValue, houterValue, houterEval⟩ := hvalues k outer houter
  obtain ⟨innerValue, hinnerValue, hinnerEval⟩ := hvalues (k + 1) inner hinner
  obtain ⟨-, houterSrc, -, houterPad⟩ := evalAxis_eq_some.mp houterEval
  obtain ⟨hinnerExtent, hinnerSrc, -, hinnerPad⟩ := evalAxis_eq_some.mp hinnerEval
  rw [padAt_eq_none (referenced_eq_false.mp hfree).1] at houterPad
  rw [padAt_eq_none (referenced_eq_false.mp hfree').1] at hinnerPad
  refine ⟨outerValue, innerValue, ⟨houterValue, hinnerValue, ?_, ?_⟩, ?_⟩
  · simpa using houterPad.symm
  · simpa using hinnerPad.symm
  · have hcontiguous : areLogicallyEqual outer.srcStride
        (getSimplifiedBinaryExpr wrap64 .mul inner.srcStride inner.extent) = true := by
      rw [CanonState.joinable, houter, hinner] at hjoin
      split at hjoin
      · rename_i h₁ h₂ _ _
        cases h₁
        cases h₂
        exact (Bool.and_eq_true_iff.mp hjoin).2
      · cases hjoin
    have hproduct := @getSimplifiedBinaryExpr_evalWord _ .mul _ _ _ _ _ hinnerSrc hinnerExtent rfl
    rw [← areLogicallyEqual_evalWord hcontiguous, houterSrc] at hproduct
    exact Option.some.inj hproduct

/-- A merge of the state is a merge of the axes it denotes. -/
theorem CanonState.Denotes.merge (h : state.Denotes σ values) (hproper : Walk.Proper values)
    (hsize : FitsI64 (Walk.size values)) (hjoin : state.joinable wrap64 k = true) :
    (state.merge wrap64 k).Denotes σ (Walk.mergeAt k values) := by
  obtain ⟨outerValue, innerValue, hpair, -⟩ := h.unpadded hjoin
  obtain ⟨outer, inner, houter, hinner, haxes, hpads, -⟩ := merge_fields hjoin
  obtain ⟨hfree, hfree'⟩ := not_referenced hjoin
  have hnoPad := (referenced_eq_false.mp hfree).1
  have hnoPad' := (referenced_eq_false.mp hfree').1
  obtain ⟨hlength, hvalues⟩ := evalAxes_eq_some.mp h
  simp only [Nat.zero_add] at hvalues
  -- the product of the extents is a factor of the size, so it does not wrap
  have hfits : FitsI64 (outerValue.extent * innerValue.extent) := by
    have hle := hproper.mergeAt.padded_le_size hpair.mem_mergeAt
    have hone := (hproper.mergeAt _ hpair.mem_mergeAt).1
    rw [Walk.size_mergeAt hpair, Walk.padded_of_no_pad rfl] at hle
    unfold FitsI64 at hsize ⊢
    simp only at hle hone
    omega
  rw [CanonState.Denotes, evalAxes_eq_some, haxes, hpads]
  refine ⟨?_, fun j axis haxis => ?_⟩
  · rw [Walk.length_mergeAt hpair.inner_eq, hlength, List.length_eraseIdx, List.length_set,
      if_pos (joinable_lt hjoin)]
  · rw [List.getElem?_eraseIdx] at haxis
    rw [Walk.mergeAt_getElem? hpair.outer_eq hpair.inner_eq, Nat.zero_add]
    rcases lt_trichotomy j k with hlt | rfl | hgt
    · rw [if_pos (by omega), List.getElem?_set, if_neg (by omega)] at haxis
      obtain ⟨value, hvalue, heval⟩ := hvalues j axis haxis
      refine ⟨value, by rw [if_pos hlt, hvalue], ?_⟩
      rw [evalAxis_eq_some] at heval ⊢
      rw [padAt_dropIndex hnoPad hnoPad', if_pos hlt.le, evalPad_dropIndex]
      exact heval
    · rw [if_pos (by omega), List.getElem?_set, if_pos rfl,
        if_pos (List.getElem?_eq_some_iff.mp houter).1] at haxis
      cases haxis
      obtain ⟨value, hvalue, houterEval⟩ := hvalues j outer houter
      obtain ⟨next, hnext, hinnerEval⟩ := hvalues (j + 1) inner hinner
      rw [hpair.outer_eq] at hvalue
      rw [hpair.inner_eq] at hnext
      cases hvalue
      cases hnext
      rw [if_neg (by omega), if_pos rfl]
      refine ⟨_, rfl, evalAxis_eq_some.mpr ⟨?_, ?_⟩⟩
      · have hproduct := @getSimplifiedBinaryExpr_evalWord _ .mul _ _ _ _ _
          (evalAxis_eq_some.mp houterEval).1 (evalAxis_eq_some.mp hinnerEval).1 rfl
        rwa [wrap64_of_fits hfits] at hproduct
      · obtain ⟨-, hsrc, hdst, -⟩ := evalAxis_eq_some.mp hinnerEval
        refine ⟨hsrc, hdst, ?_⟩
        rw [padAt_dropIndex hnoPad hnoPad', if_pos le_rfl, padAt_eq_none hnoPad]
        rfl
    · rw [if_neg (by omega), List.getElem?_set, if_neg (by omega)] at haxis
      obtain ⟨value, hvalue, heval⟩ := hvalues (j + 1) axis haxis
      refine ⟨value, by rw [if_neg (by omega), if_neg (by omega), hvalue], ?_⟩
      rw [evalAxis_eq_some] at heval ⊢
      rw [padAt_dropIndex hnoPad hnoPad', if_neg (by omega), evalPad_dropIndex]
      exact heval

/-- Where every source offset of the merged axes is a word, the contiguity was exact. -/
theorem contiguous_of_wrap {outer inner : Walk.Axis TypedAttr} (hproper : Walk.Proper values)
    (hpair : Walk.Unpadded values k outer inner)
    (hsrc : outer.srcStride = wrap64 (inner.srcStride * inner.extent))
    (hfits : ∀ cell ∈ Walk.walk (Walk.rowMajor (Walk.mergeAt k values)), cell.fills = [] →
      FitsI64 cell.src) : Walk.Contiguous values k outer inner := by
  refine ⟨hpair, fun hextent => ?_⟩
  have hinner := (hproper inner (List.mem_of_getElem? hpair.inner_eq)).1
  have hmerged := Walk.rowMajor_getElem?
    ((Walk.mergeAt_getElem? hpair.outer_eq hpair.inner_eq k).trans
      ((if_neg (lt_irrefl k)).trans (if_pos rfl)))
  -- the index at which the outer axis takes its first step
  have hindex : (inner.extent.toNat : Int) < outer.extent * inner.extent := by
    rw [Int.toNat_of_nonneg (by omega)]
    exact lt_mul_of_one_lt_left (by omega) hextent
  obtain ⟨cell, hcell, hoffset, hfills⟩ :=
    Walk.exists_cell_along hproper.mergeAt.rowMajor hmerged rfl hindex
  have hword := hfits cell hcell hfills
  rw [hoffset, Int.toNat_of_nonneg (by omega), mul_comm] at hword
  rw [hsrc]
  exact wrap64_of_fits hword

/-- The merge loop keeps the walk of the packed axes, if no source offset at its end
    leaves the words. -/
theorem CanonState.Denotes.mergeLoop (fuel : Nat) (h : state.Denotes σ values)
    (hproper : Walk.Proper values) (hsize : FitsI64 (Walk.size values)) :
    ∃ final, (state.mergeLoop wrap64 fuel).Denotes σ final ∧ Walk.Proper final ∧
      Walk.size final = Walk.size values ∧
      ((∀ cell ∈ Walk.walk (Walk.rowMajor final), cell.fills = [] → FitsI64 cell.src) →
        Walk.walk (Walk.rowMajor final) = Walk.walk (Walk.rowMajor values)) := by
  induction fuel generalizing state values with
  | zero => exact ⟨values, h, hproper, rfl, fun _ => rfl⟩
  | succ fuel ih =>
      rw [mergeLoop_succ]
      cases hfirst : state.firstMergeable wrap64 with
      | none => exact ⟨values, h, hproper, rfl, fun _ => rfl⟩
      | some k =>
          have hjoin := joinable_of_first hfirst
          obtain ⟨outer, inner, hpair, hsrc⟩ := h.unpadded hjoin
          have hmerged := h.merge hproper hsize hjoin
          rw [← Walk.size_mergeAt hpair] at hsize
          obtain ⟨final, hfinal, hproper', hsize', hwalk⟩ := ih hmerged hproper.mergeAt hsize
          refine ⟨final, hfinal, hproper', hsize'.trans (Walk.size_mergeAt hpair), fun hfits => ?_⟩
          have hrest := hwalk hfits
          rw [hrest] at hfits ⊢
          exact Walk.walk_rowMajor_mergeAt hproper
            (contiguous_of_wrap hproper hpair hsrc hfits)

/-! ### The rebuilt descriptor -/

/-- With at most one pad for an axis, the extent is widened by that pad alone. -/
theorem widenExtent_of_distinct {w : Int → Int} {extent : SymExpr} {pads : List PadFillAttr}
    (h : pads.Pairwise fun a b => a.dstAxis < b.dstAxis) :
    widenExtent w k extent pads =
      match padAt pads k with
      | none => extent
      | some pad => paddedExtent w extent pad.lo pad.hi := by
  induction pads with
  | nil => rfl
  | cons pad rest ih =>
      obtain ⟨hfirst, hrest⟩ := List.pairwise_cons.mp h
      by_cases hk : pad.dstAxis = k
      · have hfree : ∀ other ∈ rest, other.dstAxis ≠ k := fun other hother => by
          have := hfirst other hother
          omega
        have hat : padAt (pad :: rest) k = some pad := by
          rw [padAt, List.filter_cons_of_pos (by simpa using hk),
            List.filter_eq_nil_iff.mpr fun other hother => by simpa using hfree other hother]
          rfl
        rw [hat, widenExtent, List.foldl_cons, if_pos hk]
        exact widenExtent_of_free hfree
      · have hat : padAt (pad :: rest) k = padAt rest k := by
          rw [padAt, List.filter_cons_of_neg (by simpa using hk), padAt]
        rw [hat, widenExtent, List.foldl_cons, if_neg hk]
        exact ih hrest

/-- A rebuilt extent denotes the extent with the pad. -/
theorem CanonState.Denotes.dstExtent (h : state.Denotes σ values) (hproper : Walk.Proper values)
    (hsize : FitsI64 (Walk.size values)) (hordered : state.Ordered wrap64)
    {axis : CanonAxis} (haxis : state.axes[k]? = some axis) :
    ∃ value, values[k]? = some value ∧
      (widenExtent wrap64 k axis.extent state.pads).evalWord σ = some value.padded := by
  obtain ⟨-, hvalues⟩ := evalAxes_eq_some.mp h
  obtain ⟨value, hvalue, heval⟩ := hvalues k axis haxis
  obtain ⟨hextent, -, -, hpad⟩ := evalAxis_eq_some.mp heval
  rw [Nat.zero_add] at hpad
  refine ⟨value, hvalue, ?_⟩
  have hmember := List.mem_of_getElem? hvalue
  have hpositive := hproper value hmember
  have hle := hproper.padded_le_size hmember
  rw [widenExtent_of_distinct hordered.distinct]
  cases hat : padAt state.pads k with
  | none =>
      rw [hat] at hpad
      have hnone : value.pad = none := by simpa using hpad.symm
      rw [Walk.padded_of_no_pad hnone]
      exact hextent
  | some pad =>
      rw [hat] at hpad
      cases hcase : value.pad with
      | none =>
          rw [hcase] at hpad
          cases hpad
      | some padValue =>
          rw [hcase, Option.map_some, Option.map_some, Option.some.injEq] at hpad
          obtain ⟨hlo, hhi, -⟩ := evalPad_eq_some.mp hpad
          have hwidths := hpositive.2 padValue hcase
          have hone := hpositive.1
          have hpadded : value.padded = padValue.lo + value.extent + padValue.hi := by
            rw [Walk.Axis.padded, hcase]
          rw [hpadded] at hle ⊢
          unfold FitsI64 at hsize
          have hfits : FitsI64 (value.extent + padValue.lo) := by
            unfold FitsI64
            omega
          have hfits' : FitsI64 (value.extent + padValue.lo + padValue.hi) := by
            unfold FitsI64
            omega
          have hsum := @getSimplifiedBinaryExpr_evalWord _ .add _ _ _ _ _ hextent hlo rfl
          rw [wrap64_of_fits hfits] at hsum
          have htotal := @getSimplifiedBinaryExpr_evalWord _ .add _ _ _ _ _ hsum hhi rfl
          rw [wrap64_of_fits hfits', add_comm value.extent] at htotal
          exact htotal

/-- Row-major strides denote the products of the extents behind them. -/
theorem evalWord_canonicalRowMajorStrides {extents : List SymExpr} {sizes : List Int}
    (h : List.Forall₂ (fun extent size => extent.evalWord σ = some size) extents sizes)
    (hpos : ∀ size ∈ sizes, 1 ≤ size) (hfits : FitsI64 sizes.prod) {stride : SymExpr}
    (hstride : (canonicalRowMajorStrides wrap64 extents)[k]? = some stride) :
    stride.evalWord σ = some (sizes.drop (k + 1)).prod := by
  have hall : ((extents.foldr (fun extent result =>
        (result.2 :: result.1, getSimplifiedBinaryExpr wrap64 .mul result.2 extent))
        (([] : List SymExpr), .constant 1)).2.evalWord σ = some sizes.prod) ∧
      ∀ (k : Nat) (stride : SymExpr), (canonicalRowMajorStrides wrap64 extents)[k]? = some stride →
        stride.evalWord σ = some (sizes.drop (k + 1)).prod := by
    clear hstride
    induction h with
    | nil => exact ⟨rfl, fun k stride hstride => by cases hstride⟩
    | cons hsize _ ih =>
        rename_i extent size extents sizes _
        rw [List.forall_mem_cons] at hpos
        rw [List.prod_cons] at hfits
        have hrest := one_le_prod hpos.2
        have hle := le_mul_of_one_le_left (by omega : 0 ≤ sizes.prod) hpos.1
        have hfitsRest : FitsI64 sizes.prod := by
          unfold FitsI64 at hfits ⊢
          omega
        obtain ⟨hproduct, hstrides⟩ := ih hpos.2 hfitsRest
        constructor
        · have htotal := @getSimplifiedBinaryExpr_evalWord _ .mul _ _ _ _ _ hproduct hsize rfl
          rw [mul_comm, wrap64_of_fits hfits] at htotal
          rw [List.prod_cons]
          exact htotal
        · intro k stride hstride
          cases k with
          | zero =>
              cases hstride
              exact hproduct
          | succ k => exact hstrides k stride hstride
  exact hall.2 k stride hstride

theorem CanonState.Denotes.rowMajorStride (h : state.Denotes σ values)
    (hproper : Walk.Proper values) (hsize : FitsI64 (Walk.size values))
    (hordered : state.Ordered wrap64) {stride : SymExpr}
    (hstride : (canonicalRowMajorStrides wrap64 (state.dstExtents wrap64))[k]? = some stride) :
    stride.evalWord σ = some (Walk.size (values.drop (k + 1))) := by
  have hlength := (evalAxes_eq_some.mp h).1
  have hextents : List.Forall₂ (fun extent size => extent.evalWord σ = some size)
      (state.dstExtents wrap64) (values.map Walk.Axis.padded) := by
    rw [List.forall₂_iff_get]
    refine ⟨by rw [length_dstExtents, List.length_map, hlength], fun j hj hj' => ?_⟩
    rw [length_dstExtents] at hj
    obtain ⟨value, hvalue, heval⟩ :=
      h.dstExtent hproper hsize hordered (List.getElem?_eq_getElem hj)
    obtain ⟨_, hget⟩ := List.getElem?_eq_some_iff.mp hvalue
    simp only [List.get_eq_getElem, CanonState.dstExtents, List.getElem_map, List.getElem_zipIdx,
      Nat.zero_add, hget]
    exact heval
  have hpos : ∀ size ∈ values.map Walk.Axis.padded, 1 ≤ size := by
    intro size hmem
    obtain ⟨value, hvalue, rfl⟩ := List.mem_map.mp hmem
    exact (hproper value hvalue).1.trans (hproper value hvalue).one_le_padded
  have hproduct := evalWord_canonicalRowMajorStrides hextents hpos hsize hstride
  rwa [← List.map_drop] at hproduct

/-! ### The meaning of a canonical plan -/

theorem PlanAttr.map_canon_canonAxes {w : Int → Int} (plan : PlanAttr) :
    (plan.canonAxes w).map AxisInfoAttr.canon =
      ((plan.mergedState w).withStrides (plan.canonStrides w)).axes := by
  show ((((plan.mergedState w).axes.zip (plan.canonStrides w)).zipIdx).map _).map _ = _
  rw [List.map_map]
  exact map_zipIdx_fst (fun entry : CanonAxis × SymExpr =>
    { entry.1 with dstStride := entry.2 }) _

/-- What the axes of a canonical plan evaluate to, beside what the merged state denotes. -/
theorem canonical_getElem? {inverse : AffineMap} {final axes : List (Walk.Axis TypedAttr)}
    (hfinal : (plan.mergedState wrap64).Denotes σ final)
    (haxes : evalAxes (evalChecked σ) (plan.canonical wrap64 inverse).padFill 0
      ((plan.canonical wrap64 inverse).axes.map AxisInfoAttr.canon) = some axes) (k : Nat)
    (hk : k < final.length) :
    ∃ value stride, (plan.canonStrides wrap64)[k]? = some stride ∧ final[k]? = some value ∧
      ∃ dstStride, stride.evalWord σ = some dstStride ∧
        axes[k]? = some { value with dstStride } := by
  obtain ⟨hlength, hvalues⟩ := evalAxes_eq_some.mp hfinal
  obtain ⟨-, hwords⟩ :=
    evalAxes_eq_some.mp (evalAxes_mono (fun _ _ => evalWord_of_evalChecked) haxes)
  have hlt : k < (plan.mergedState wrap64).axes.length := hlength ▸ hk
  have hlt' : k < (plan.canonStrides wrap64).length := by rwa [plan.length_canonStrides]
  obtain ⟨value, hvalue, heval⟩ := hvalues k _ (List.getElem?_eq_getElem hlt)
  have hcanon := List.getElem?_eq_getElem hlt'
  refine ⟨value, _, hcanon, hvalue, ?_⟩
  obtain ⟨word, hword, heval'⟩ := hwords k _ (by
    show ((plan.canonAxes wrap64).map AxisInfoAttr.canon)[k]? = _
    rw [plan.map_canon_canonAxes, CanonState.withStrides_getElem?, List.getElem?_eq_getElem hlt,
      hcanon]
    rfl)
  obtain ⟨hextent, hsrc, -, hpad⟩ := evalAxis_eq_some.mp heval
  obtain ⟨hextent', hsrc', hdst', hpad'⟩ := evalAxis_eq_some.mp heval'
  refine ⟨word.dstStride, hdst', ?_⟩
  have hpads : word.pad.map some = value.pad.map some := hpad'.symm.trans hpad
  rw [hword]
  have hsame : word = ⟨value.extent, value.srcStride, word.dstStride, value.pad⟩ := by
    have hextents := hextent'.symm.trans hextent
    have hsrcs := hsrc'.symm.trans hsrc
    rw [Option.some.injEq] at hextents hsrcs
    rw [← hextents, ← hsrcs, ← Option.map_injective (Option.some_injective _) hpads]
  rw [hsame]

/-- A list of axes is known by what stands at every index of another one. -/
theorem axes_eq_of_getElem? {axes final : List (Walk.Axis TypedAttr)}
    (hlength : axes.length = final.length) (h : ∀ k, k < final.length → axes[k]? = final[k]?) :
    axes = final := by
  apply List.ext_getElem?
  intro k
  by_cases hk : k < final.length
  · exact h k hk
  · rw [List.getElem?_eq_none (by omega), List.getElem?_eq_none (by omega)]

section
variable {inverse : AffineMap} {layout' : Walk.Layout TypedAttr}
  (hplan : plan.evaluate σ = some layout)
  (hp : (plan.canonical wrap64 inverse).evaluate σ = some layout')
include hp

theorem canonical_length {final : List (Walk.Axis TypedAttr)}
    (hfinal : (plan.mergedState wrap64).Denotes σ final) :
    layout'.axes.length = final.length := by
  have hlength := (evalAxes_eq_some.mp hfinal).1
  have hlength' := (evalAxes_eq_some.mp (PlanAttr.evaluate_eq_some.mp hp).2.2.1).1
  rw [List.length_map] at hlength'
  rw [hlength, hlength']
  exact plan.length_canonAxes

/-- In fold-normal form the axes are the merged ones with the strides of a packed
    destination. -/
theorem canonical_rowMajor (hfold : plan.foldNormal wrap64 = true)
    {final : List (Walk.Axis TypedAttr)} (hfinal : (plan.mergedState wrap64).Denotes σ final)
    (hproper : Walk.Proper final) (hsize : FitsI64 (Walk.size final)) :
    layout'.axes = Walk.rowMajor final := by
  have haxes := (PlanAttr.evaluate_eq_some.mp hp).2.2.1
  have hrows : (Walk.rowMajor final).length = final.length := by
    clear hfinal hproper hsize
    induction final with
    | nil => rfl
    | cons axis rest ih => exact congrArg (· + 1) ih
  refine axes_eq_of_getElem? ((canonical_length hp hfinal).trans hrows.symm) fun k hk => ?_
  rw [hrows] at hk
  obtain ⟨value, stride, hstride, hvalue, dstStride, heval, hresult⟩ :=
    canonical_getElem? hfinal haxes k hk
  rw [PlanAttr.canonStrides, if_pos hfold] at hstride
  have hproduct := hfinal.rowMajorStride hproper hsize (PlanAttr.ordered_mergedState hfold) hstride
  rw [heval, Option.some.injEq] at hproduct
  rw [hresult, Walk.rowMajor_getElem? hvalue, hproduct]

include hplan

/-- Outside of it the axes keep their values. -/
theorem canonical_axes (hfold : plan.foldNormal wrap64 = false) : layout'.axes = layout.axes := by
  have haxes := (PlanAttr.evaluate_eq_some.mp hp).2.2.1
  have hstate : plan.mergedState wrap64 = plan.canonState wrap64 := if_neg (by simp [hfold])
  have hfinal : (plan.mergedState wrap64).Denotes σ layout.axes :=
    hstate ▸ denotes_canonState hplan
  refine axes_eq_of_getElem? (canonical_length hp hfinal) fun k hk => ?_
  obtain ⟨value, stride, hstride, hvalue, dstStride, heval, hresult⟩ :=
    canonical_getElem? hfinal haxes k hk
  rw [PlanAttr.canonStrides, if_neg (by simp [hfold]), List.getElem?_map] at hstride
  obtain ⟨axis, haxis, rfl⟩ := Option.map_eq_some_iff.mp hstride
  obtain ⟨value', hvalue', heval'⟩ := (evalAxes_eq_some.mp hfinal).2 k axis haxis
  rw [hvalue] at hvalue'
  cases hvalue'
  have hdst := (evalAxis_eq_some.mp heval').2.2.1
  rw [heval, Option.some.injEq] at hdst
  rw [hresult, hvalue, hdst]

theorem canonical_offsets :
    layout'.srcOffset = layout.srcOffset ∧ layout'.dstOffset = layout.dstOffset := by
  obtain ⟨hsrc, hdst, -⟩ := PlanAttr.evaluate_eq_some.mp hplan
  obtain ⟨hsrc', hdst', -⟩ := PlanAttr.evaluate_eq_some.mp hp
  have hoffset : (plan.canonDst wrap64).offset = resimplify wrap64 plan.dst.offset := by
    unfold PlanAttr.canonDst
    split <;> rfl
  have hsame {expr : SymExpr} {value value' : Int} (hvalue : expr.evalChecked σ = some value)
      (hvalue' : (resimplify wrap64 expr).evalChecked σ = some value') : value' = value := by
    have hword := wordRefines_resimplify expr _ (evalWord_of_evalChecked hvalue)
    rw [evalWord_of_evalChecked hvalue', Option.some.injEq] at hword
    exact hword
  refine ⟨hsame hsrc hsrc', hsame hdst ?_⟩
  rw [← hoffset]
  exact hdst'

/-- In fold-normal form the canonical plan walks as the packed axes of the plan. -/
theorem canonical_sameMeaning_rowMajor (hfold : plan.foldNormal wrap64 = true) :
    layout'.SameMeaning layout.rowMajor := by
  obtain ⟨hsrc, hdst⟩ := canonical_offsets hplan hp
  obtain ⟨-, -, -, hproper, hsize, -⟩ := PlanAttr.evaluate_eq_some.mp hplan
  obtain ⟨-, -, -, -, -, hoffsets⟩ := PlanAttr.evaluate_eq_some.mp hp
  obtain ⟨final, hfinal, hproper', hsize', hwalk⟩ :=
    (denotes_canonState hplan).mergeLoop plan.axes.length hproper hsize
  rw [← PlanAttr.mergedState_eq hfold] at hfinal
  have haxes := canonical_rowMajor hp hfold hfinal hproper' (hsize'.symm ▸ hsize)
  refine .of_walk hsrc hdst ?_ ?_
  · rw [haxes, Walk.size_rowMajor, hsize']
    exact (Walk.size_rowMajor _).symm
  · rw [haxes]
    exact hwalk (haxes ▸ hoffsets)

theorem canonical_sameMeaning (hfold : plan.foldNormal wrap64 = false) :
    layout'.SameMeaning layout := by
  obtain ⟨hsrc, hdst⟩ := canonical_offsets hplan hp
  have haxes := canonical_axes hplan hp hfold
  exact .of_walk hsrc hdst (by rw [haxes]) (by rw [haxes])

end

/-- In particular they do when every axis of more than one index has the stride of a
    packed destination already. -/
theorem sameMeaning_of_packed {p : PlanAttr} {layout' : Walk.Layout TypedAttr}
    (h : canonicalizePlan wrap64 plan = some p) (hplan : plan.evaluate σ = some layout)
    (hp : p.evaluate σ = some layout')
    (hstrides : ∀ k axis, layout.axes[k]? = some axis → axis.padded ≠ 1 →
      axis.dstStride = Walk.size (layout.axes.drop (k + 1))) :
    layout'.SameMeaning layout := by
  obtain ⟨inverse, -, rfl, -⟩ := canonicalizePlan_eq_some.mp h
  obtain ⟨-, -, -, hproper, -⟩ := PlanAttr.evaluate_eq_some.mp hplan
  cases hfold : plan.foldNormal wrap64 with
  | false => exact canonical_sameMeaning hplan hp hfold
  | true =>
      exact (canonical_sameMeaning_rowMajor hplan hp hfold).trans
        (.of_walk rfl rfl (Walk.size_rowMajor _) (Walk.walk_rowMajor_of_strides hproper hstrides))

/-! ### A window of a larger destination, and a transposition -/

/-- A copy of a `2 × 3` tensor into a corner of a `5 × 7` one. -/
def windowPlan : PlanAttr where
  src := ⟨[.constant 2, .constant 3], [], .constant 0, .f32, .inl rfl,
    MlirType.isTensorElement_f32⟩
  dst := ⟨[.constant 5, .constant 7], [], .constant 0, .f32, .inl rfl,
    MlirType.isTensorElement_f32⟩
  perm := [0, 1]
  axes := [⟨[97], .constant 2, .constant 3, .constant 7⟩,
    ⟨[98], .constant 3, .constant 1, .constant 1⟩]
  padFill := []
  divisibility := []
  alignment := []
  contiguity := []
  noCopy := false
  runtimePadCheck := false
  inverse := .identity 2

/-- A transposition of `[a, b]`. -/
def transposedPlan : PlanAttr :=
  let a : SymExpr := .symbol [97]
  let b : SymExpr := .symbol [98]
  { src := ⟨[a, b], [], .constant 0, .f32, .inl rfl,
    MlirType.isTensorElement_f32⟩
    dst := ⟨[b, a], [], .constant 0, .f32, .inl rfl,
    MlirType.isTensorElement_f32⟩
    perm := [1, 0]
    axes := [⟨[98], b, .constant 1, a⟩, ⟨[97], a, b, .constant 1⟩]
    padFill := []
    divisibility := []
    alignment := []
    contiguity := []
    noCopy := false
    runtimePadCheck := false
    inverse := ⟨2, 0, [.dim 1, .dim 0], by decide⟩ }

end SymReloc
