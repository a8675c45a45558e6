import Mathlib.Algebra.BigOperators.Group.List.Basic
import Mathlib.Data.Int.ConditionallyCompleteOrder
import Mathlib.Data.List.Forall2
import Mathlib.Data.Set.Function
import Mathlib.Order.Bounds.Basic
import Mathlib.Order.Interval.Set.Defs
import Mathlib.Tactic.Common
import Mathlib.Tactic.Linarith
import Mathlib.Tactic.Ring

/-!
# Strided index spaces

An axis counts an index from zero up to its extent, and each count moves the
offset by the axis' stride.  When the axes can be ordered so that every stride
exceeds what the smaller axes reach together, different index tuples have
different offsets; when moreover the number of tuples is the reach plus one, the
offsets are exactly the numbers from zero to the reach.
-/

namespace SymReloc.Strides

structure Axis where
  extent : Int
  stride : Int
deriving DecidableEq, Repr

/-- The index tuples of an index space. -/
def InBox : List Axis → List Int → Prop :=
  List.Forall₂ fun axis i => 0 ≤ i ∧ i < axis.extent

def offset : List Axis → List Int → Int
  | axis :: axes, i :: index => i * axis.stride + offset axes index
  | _, _ => 0

/-- The largest offset. -/
def reach : List Axis → Int
  | [] => 0
  | axis :: axes => (axis.extent - 1) * axis.stride + reach axes

/-- The number of index tuples. -/
def cells : List Axis → Int
  | [] => 1
  | axis :: axes => axis.extent * cells axes

/-- Every axis has an index, and no axis moves the offset back. -/
def Forward (axes : List Axis) : Prop := ∀ axis ∈ axes, 1 ≤ axis.extent ∧ 0 ≤ axis.stride

/-- From the innermost axis outwards, each stride exceeds what is reached below it;
    an axis of extent one may have any stride. -/
def Nested (below : Int) : List Axis → Prop
  | [] => True
  | axis :: axes =>
      (axis.extent = 1 ∨ below < axis.stride) ∧
        Nested (below + (axis.extent - 1) * axis.stride) axes

instance Nested.decidable : (below : Int) → (axes : List Axis) → Decidable (Nested below axes)
  | _, [] => .isTrue trivial
  | below, axis :: axes =>
      have := decidable (below + (axis.extent - 1) * axis.stride) axes
      inferInstanceAs (Decidable (_ ∧ _))

variable {axis : Axis} {axes axes' : List Axis} {index index' : List Int} {below : Int}

@[simp] theorem forward_cons :
    Forward (axis :: axes) ↔ (1 ≤ axis.extent ∧ 0 ≤ axis.stride) ∧ Forward axes :=
  List.forall_mem_cons

theorem Forward.perm (h : Forward axes) (hperm : axes.Perm axes') : Forward axes' :=
  fun axis hmem => h axis (hperm.mem_iff.mpr hmem)

/-! ### Bounds -/

theorem Forward.reach_nonneg (h : Forward axes) : 0 ≤ reach axes := by
  induction axes with
  | nil => exact le_refl 0
  | cons axis axes ih =>
      rw [forward_cons] at h
      have hstep : 0 ≤ (axis.extent - 1) * axis.stride := mul_nonneg (by omega) h.1.2
      have hrest := ih h.2
      simp only [reach]
      omega

theorem Forward.cells_pos (h : Forward axes) : 1 ≤ cells axes := by
  induction axes with
  | nil => exact le_refl 1
  | cons axis axes ih =>
      rw [forward_cons] at h
      exact one_le_mul_of_one_le_of_one_le h.1.1 (ih h.2)

theorem Forward.extent_le_cells (h : Forward axes) (hmem : axis ∈ axes) :
    axis.extent ≤ cells axes := by
  induction axes with
  | nil => exact absurd hmem List.not_mem_nil
  | cons head axes ih =>
      rw [forward_cons] at h
      have hrest := h.2.cells_pos
      have hhead := h.1.1
      rw [cells]
      rcases List.mem_cons.mp hmem with heq | htail
      · rw [heq]
        exact le_mul_of_one_le_right (by omega) hrest
      · exact (ih h.2 htail).trans (le_mul_of_one_le_left (by omega) hhead)

theorem offset_nonneg (h : Forward axes) (hbox : InBox axes index) : 0 ≤ offset axes index := by
  induction hbox with
  | nil => exact le_refl 0
  | cons hi _ ih =>
      rw [forward_cons] at h
      exact add_nonneg (mul_nonneg hi.1 h.1.2) (ih h.2)

theorem offset_le_reach (h : Forward axes) (hbox : InBox axes index) :
    offset axes index ≤ reach axes := by
  induction hbox with
  | nil => exact le_refl 0
  | cons hi _ ih =>
      rw [forward_cons] at h
      have hstep := mul_le_mul_of_nonneg_right (Int.le_sub_one_of_lt hi.2) h.1.2
      exact add_le_add hstep (ih h.2)

/-- The tuple of last indices. -/
def lastIndex (axes : List Axis) : List Int := axes.map fun axis => axis.extent - 1

theorem inBox_lastIndex (h : Forward axes) : InBox axes (lastIndex axes) := by
  induction axes with
  | nil => exact .nil
  | cons axis axes ih =>
      rw [forward_cons] at h
      exact .cons ⟨sub_nonneg.mpr h.1.1, sub_one_lt axis.extent⟩ (ih h.2)

theorem offset_lastIndex (axes : List Axis) : offset axes (lastIndex axes) = reach axes := by
  induction axes with
  | nil => rfl
  | cons axis axes ih => exact congrArg ((axis.extent - 1) * axis.stride + ·) ih

theorem isGreatest_reach (h : Forward axes) :
    IsGreatest (Set.image (offset axes) {index | InBox axes index}) (reach axes) := by
  constructor
  · exact ⟨lastIndex axes, inBox_lastIndex h, offset_lastIndex axes⟩
  · intro value hvalue
    obtain ⟨index, hindex, rfl⟩ := hvalue
    exact offset_le_reach h hindex

/-! ### Nested axes -/

/-- The induction behind `Nested.injOn`: below the axes two offsets may still differ,
    by less than any stride that is left. -/
theorem Nested.eq_of_offset_eq (hnested : Nested below axes) (hforward : Forward axes)
    {x y : Int} (hx : 0 ≤ x ∧ x ≤ below) (hy : 0 ≤ y ∧ y ≤ below)
    (hindex : InBox axes index) (hindex' : InBox axes index')
    (heq : x + offset axes index = y + offset axes index') : x = y ∧ index = index' := by
  induction axes generalizing below x y index index' with
  | nil =>
      cases hindex
      cases hindex'
      exact ⟨by simpa [offset] using heq, rfl⟩
  | cons axis axes ih =>
      rcases hindex with _ | ⟨hi, hrest⟩
      rcases hindex' with _ | ⟨hj, hrest'⟩
      rename_i i index j index'
      rw [forward_cons] at hforward
      have hi' := mul_le_mul_of_nonneg_right (Int.le_sub_one_of_lt hi.2) hforward.1.2
      have hj' := mul_le_mul_of_nonneg_right (Int.le_sub_one_of_lt hj.2) hforward.1.2
      have hi0 := mul_nonneg hi.1 hforward.1.2
      have hj0 := mul_nonneg hj.1 hforward.1.2
      obtain ⟨hsum, htail⟩ := ih hnested.2 hforward.2
        (x := x + i * axis.stride) (y := y + j * axis.stride)
        ⟨by omega, by omega⟩ ⟨by omega, by omega⟩ hrest hrest'
        (by simpa only [offset, add_assoc] using heq)
      have hij : i = j := by
        rcases hnested.1 with hone | hgap
        · omega
        · -- a difference of one index is already more than the rest can make up for
          rcases lt_trichotomy i j with hlt | heq | hgt
          · have := mul_le_mul_of_nonneg_right (Int.add_one_le_of_lt hlt) hforward.1.2
            rw [add_mul, one_mul] at this
            omega
          · exact heq
          · have := mul_le_mul_of_nonneg_right (Int.add_one_le_of_lt hgt) hforward.1.2
            rw [add_mul, one_mul] at this
            omega
      subst hij
      exact ⟨by omega, by rw [htail]⟩

theorem Nested.injOn (hnested : Nested 0 axes) (hforward : Forward axes) :
    Set.InjOn (offset axes) {index | InBox axes index} := by
  intro index hindex index' hindex' heq
  exact (hnested.eq_of_offset_eq hforward (x := 0) (y := 0) (by omega) (by omega) hindex hindex'
    (by simpa using heq)).2

theorem Nested.cells_le (hnested : Nested below axes) (hforward : Forward axes)
    (hbelow : 0 ≤ below) : (below + 1) * cells axes ≤ below + reach axes + 1 := by
  induction axes generalizing below with
  | nil => simp [cells, reach]
  | cons axis axes ih =>
      rw [forward_cons] at hforward
      have hstep : 0 ≤ (axis.extent - 1) * axis.stride :=
        mul_nonneg (by omega) hforward.1.2
      have hrest := ih hnested.2 hforward.2 (by omega)
      have hhead : (below + 1) * axis.extent ≤ below + (axis.extent - 1) * axis.stride + 1 := by
        rcases hnested.1 with hone | hgap
        · rw [hone]
          omega
        · have := mul_le_mul_of_nonneg_left (Int.add_one_le_of_lt hgap)
            (show 0 ≤ axis.extent - 1 by omega)
          linarith
      have hpos := hforward.2.cells_pos
      have hmul := mul_le_mul_of_nonneg_right hhead (show 0 ≤ cells axes by omega)
      simp only [cells, reach]
      linarith

/-- When the count is exact no stride leaves a gap, and every offset has its tuple. -/
theorem Nested.exists_index (hnested : Nested below axes) (hforward : Forward axes)
    (hbelow : 0 ≤ below) (hdense : (below + 1) * cells axes = below + reach axes + 1)
    {c : Int} (hc : 0 ≤ c) (hlast : c ≤ below + reach axes) :
    ∃ x index, 0 ≤ x ∧ x ≤ below ∧ InBox axes index ∧ x + offset axes index = c := by
  induction axes generalizing below c with
  | nil => exact ⟨c, [], hc, by simpa [reach] using hlast, .nil, by simp [offset]⟩
  | cons axis axes ih =>
      rw [forward_cons] at hforward
      have hpos := hforward.2.cells_pos
      have hstep : 0 ≤ (axis.extent - 1) * axis.stride := mul_nonneg (by omega) hforward.1.2
      have hrest := hnested.2.cells_le hforward.2 (by omega)
      simp only [cells, reach] at hdense hlast
      have hhead : below + (axis.extent - 1) * axis.stride + 1 = (below + 1) * axis.extent := by
        apply le_antisymm
        · refine le_of_mul_le_mul_right (a := cells axes) ?_ (by omega)
          linarith
        · rcases hnested.1 with hone | hgap
          · rw [hone]
            omega
          · have := mul_le_mul_of_nonneg_left (Int.add_one_le_of_lt hgap)
              (show 0 ≤ axis.extent - 1 by omega)
            linarith
      obtain ⟨x, index, hx, hxle, hbox, hoffset⟩ := ih hnested.2 hforward.2 (by omega)
        (by rw [hhead]; linarith) hc (by omega)
      by_cases hone : axis.extent = 1
      · refine ⟨x, 0 :: index, hx, ?_, .cons ⟨le_refl 0, by omega⟩ hbox, ?_⟩
        · simpa [hone] using hxle
        · simpa [offset] using hoffset
      · have hstride : axis.stride = below + 1 := by
          refine mul_left_cancel₀ (a := axis.extent - 1) (by omega) ?_
          linarith
        have hdiv := Int.mul_ediv_add_emod x axis.stride
        have hmod := Int.emod_lt_of_pos x (show 0 < axis.stride by omega)
        have hmod0 := Int.emod_nonneg x (show axis.stride ≠ 0 by omega)
        refine ⟨x % axis.stride, x / axis.stride :: index, hmod0, by omega,
          .cons ⟨Int.ediv_nonneg hx (by omega), ?_⟩ hbox, ?_⟩
        · apply Int.ediv_lt_of_lt_mul (by omega)
          rw [hstride, mul_comm]
          omega
        · simp only [offset]
          rw [mul_comm (x / axis.stride)]
          omega

/-! ### Any order of the axes -/

@[simp] theorem reach_perm (hperm : axes.Perm axes') : reach axes = reach axes' := by
  induction hperm with
  | nil => rfl
  | cons axis _ ih => simp only [reach, ih]
  | swap axis axis' axes => simp only [reach]; ring
  | trans _ _ ih ih' => exact ih.trans ih'

theorem cells_perm (hperm : axes.Perm axes') : cells axes = cells axes' := by
  induction hperm with
  | nil => rfl
  | cons axis _ ih => simp only [cells, ih]
  | swap axis axis' axes => simp only [cells]; ring
  | trans _ _ ih ih' => exact ih.trans ih'

/-- Reordering the axes reorders the tuples and keeps their offsets. -/
theorem exists_reindex (hperm : axes.Perm axes') :
    ∃ f : List Int → List Int, Set.InjOn f {index | InBox axes index} ∧
      ∀ index, InBox axes index → InBox axes' (f index) ∧
        offset axes' (f index) = offset axes index := by
  induction hperm with
  | nil => exact ⟨id, fun _ _ _ _ h => h, fun index h => ⟨h, rfl⟩⟩
  | cons axis _ ih =>
      obtain ⟨f, hinj, hf⟩ := ih
      refine ⟨fun index => index.headI :: f index.tail, ?_, ?_⟩
      · rintro _ (_ | ⟨hi, hrest⟩) _ (_ | ⟨hj, hrest'⟩) heq
        simp only [List.headI_cons, List.tail_cons, List.cons.injEq] at heq
        rw [heq.1, hinj hrest hrest' heq.2]
      · rintro _ (_ | ⟨hi, hrest⟩)
        exact ⟨.cons hi (hf _ hrest).1, congrArg (_ + ·) (hf _ hrest).2⟩
  | swap axis axis' axes =>
      refine ⟨fun index => index.tail.headI :: index.headI :: index.tail.tail, ?_, ?_⟩
      · rintro _ (_ | ⟨hi, (_ | ⟨hi', hrest⟩)⟩) _ (_ | ⟨hj, (_ | ⟨hj', hrest'⟩)⟩) heq
        simp only [List.headI_cons, List.tail_cons, List.cons.injEq] at heq
        rw [heq.1, heq.2.1, heq.2.2]
      · rintro _ (_ | ⟨hi, (_ | ⟨hi', hrest⟩)⟩)
        refine ⟨.cons hi' (.cons hi hrest), ?_⟩
        simp only [List.headI_cons, List.tail_cons, offset]
        ring
  | trans _ _ ih ih' =>
      obtain ⟨f, hinj, hf⟩ := ih
      obtain ⟨g, hinj', hg⟩ := ih'
      refine ⟨g ∘ f, fun _ hindex _ hindex' heq => ?_, fun index hindex => ?_⟩
      · exact hinj hindex hindex' (hinj' (hf _ hindex).1 (hf _ hindex').1 heq)
      · obtain ⟨hbox, hoffset⟩ := hf index hindex
        exact ⟨(hg _ hbox).1, (hg _ hbox).2.trans hoffset⟩

theorem injOn_offset (hperm : axes'.Perm axes) (hnested : Nested 0 axes')
    (hforward : Forward axes) : Set.InjOn (offset axes) {index | InBox axes index} := by
  intro index hindex index' hindex' heq
  obtain ⟨f, hinj, hf⟩ := exists_reindex hperm.symm
  refine hinj hindex hindex' (hnested.injOn (hforward.perm hperm.symm) (hf _ hindex).1
    (hf _ hindex').1 ?_)
  rw [(hf _ hindex).2, (hf _ hindex').2, heq]

theorem exists_offset_eq (hperm : axes'.Perm axes) (hnested : Nested 0 axes')
    (hforward : Forward axes) (hdense : cells axes = reach axes + 1) {c : Int} (hc : 0 ≤ c)
    (hlast : c < cells axes) : ∃ index, InBox axes index ∧ offset axes index = c := by
  have hcells := cells_perm hperm
  have hreach := reach_perm hperm
  obtain ⟨x, index, hx, hxle, hbox, hoffset⟩ :=
    hnested.exists_index (hforward.perm hperm.symm) (le_refl 0) (by omega) hc (by omega)
  obtain ⟨f, -, hf⟩ := exists_reindex hperm
  exact ⟨f index, (hf _ hbox).1, by rw [(hf _ hbox).2]; omega⟩

/-- Axes that nest in some order and leave no gap number the cells one to one. -/
theorem bijOn_offset (hperm : axes'.Perm axes) (hnested : Nested 0 axes')
    (hforward : Forward axes) (hdense : cells axes = reach axes + 1) :
    Set.BijOn (offset axes) {index | InBox axes index} (Set.Ico 0 (cells axes)) := by
  refine ⟨fun index hindex => ?_, injOn_offset hperm hnested hforward, fun c hc => ?_⟩
  · have hle := offset_le_reach hforward hindex
    exact ⟨offset_nonneg hforward hindex, by omega⟩
  · exact exists_offset_eq hperm hnested hforward hdense hc.1 hc.2

end SymReloc.Strides
