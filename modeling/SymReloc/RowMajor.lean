import Mathlib.Algebra.BigOperators.Group.List.Basic
import Mathlib.Algebra.Order.Ring.Int
import Mathlib.Data.Int.ConditionallyCompleteOrder
import Mathlib.Data.List.Forall2
import Mathlib.Tactic.Common
import Mathlib.Tactic.Linarith
import Mathlib.Tactic.Ring

/-!
# Row-major index tuples

The tuples of a shape are numbered in row-major order by `flat` and found again by `unflat`.
Two shapes with one number of tuples are relaid onto each other by the number (`relayout`);
where the shapes fall into groups of equal numbers, the relaying goes group by group
(`relayout_append`).
-/

namespace SymReloc.RowMajor

/-- The index tuples of a shape. -/
def InBox : List Int → List Int → Prop := List.Forall₂ fun size i => 0 ≤ i ∧ i < size

/-- Every size is positive. -/
def Positive (shape : List Int) : Prop := ∀ size ∈ shape, 1 ≤ size

/-- The number of an index tuple. -/
def flat : List Int → List Int → Int
  | _ :: shape, i :: index => i * shape.prod + flat shape index
  | _, _ => 0

/-- The index tuple with a number. -/
def unflat : List Int → Int → List Int
  | [], _ => []
  | _ :: shape, n => n / shape.prod :: unflat shape (n % shape.prod)

/-- The tuple of one shape at the place of a tuple of another. -/
def relayout (shape target index : List Int) : List Int := unflat shape (flat target index)

/-- An index tuple against strides. -/
def dot : List Int → List Int → Int
  | stride :: strides, i :: index => i * stride + dot strides index
  | _, _ => 0

/-- The strides of a shape packed in units of `unit`. -/
def strides (unit : Int) : List Int → List Int
  | [] => []
  | _ :: shape => unit * shape.prod :: strides unit shape

variable {shape shape' target target' index index' : List Int} {n unit size : Int}

@[simp] theorem positive_cons : Positive (size :: shape) ↔ 1 ≤ size ∧ Positive shape :=
  List.forall_mem_cons

@[simp] theorem positive_append : Positive (shape ++ shape') ↔ Positive shape ∧ Positive shape' :=
  List.forall_mem_append

theorem Positive.one_le_prod (h : Positive shape) : 1 ≤ shape.prod := by
  induction shape with
  | nil => exact le_rfl
  | cons size shape ih =>
      rw [positive_cons] at h
      rw [List.prod_cons]
      exact one_le_mul_of_one_le_of_one_le h.1 (ih h.2)

theorem Positive.le_prod (h : Positive shape) (hmem : size ∈ shape) : size ≤ shape.prod := by
  induction shape with
  | nil => exact absurd hmem List.not_mem_nil
  | cons head shape ih =>
      rw [positive_cons] at h
      have hrest := h.2.one_le_prod
      rw [List.prod_cons]
      rcases List.mem_cons.mp hmem with rfl | htail
      · exact le_mul_of_one_le_right (by omega) hrest
      · exact (ih h.2 htail).trans (le_mul_of_one_le_left (by omega) h.1)

theorem InBox.length_eq (h : InBox shape index) : shape.length = index.length :=
  List.Forall₂.length_eq h

/-! ### Numbering -/

theorem flat_nonneg (hpos : Positive shape) (h : InBox shape index) : 0 ≤ flat shape index := by
  induction h with
  | nil => exact le_rfl
  | cons hi _ ih =>
      rw [positive_cons] at hpos
      exact add_nonneg (mul_nonneg hi.1 (by have := hpos.2.one_le_prod; omega)) (ih hpos.2)

theorem flat_lt (hpos : Positive shape) (h : InBox shape index) :
    flat shape index < shape.prod := by
  induction h with
  | nil => exact one_pos
  | @cons size i shape index hi _ ih =>
      rw [positive_cons] at hpos
      have hrest := hpos.2.one_le_prod
      have hstep : (i + 1) * shape.prod ≤ size * shape.prod :=
        mul_le_mul_of_nonneg_right (by omega) (by omega)
      have htail := ih hpos.2
      rw [List.prod_cons, flat]
      linarith

theorem inBox_unflat (hpos : Positive shape) (h0 : 0 ≤ n) (hlt : n < shape.prod) :
    InBox shape (unflat shape n) := by
  induction shape generalizing n with
  | nil => exact .nil
  | cons size shape ih =>
      rw [positive_cons] at hpos
      rw [List.prod_cons] at hlt
      have hrest : 0 < shape.prod := by have := hpos.2.one_le_prod; omega
      refine .cons ⟨Int.ediv_nonneg h0 hrest.le, Int.ediv_lt_of_lt_mul hrest hlt⟩ ?_
      exact ih hpos.2 (Int.emod_nonneg _ hrest.ne') (Int.emod_lt_of_pos _ hrest)

theorem flat_unflat (hpos : Positive shape) (h0 : 0 ≤ n) (hlt : n < shape.prod) :
    flat shape (unflat shape n) = n := by
  induction shape generalizing n with
  | nil =>
      rw [List.prod_nil] at hlt
      exact (show (0 : Int) = n by omega)
  | cons size shape ih =>
      rw [positive_cons] at hpos
      have hrest : 0 < shape.prod := by have := hpos.2.one_le_prod; omega
      rw [unflat, flat, ih hpos.2 (Int.emod_nonneg _ hrest.ne') (Int.emod_lt_of_pos _ hrest)]
      exact Int.ediv_mul_add_emod n shape.prod

theorem unflat_flat (hpos : Positive shape) (h : InBox shape index) :
    unflat shape (flat shape index) = index := by
  induction h with
  | nil => rfl
  | @cons size i shape index hi htail ih =>
      rw [positive_cons] at hpos
      have hrest : 0 < shape.prod := by have := hpos.2.one_le_prod; omega
      have h0 := flat_nonneg hpos.2 htail
      have hlt := flat_lt hpos.2 htail
      have hdiv : (i * shape.prod + flat shape index) / shape.prod = i := by
        rw [add_comm, Int.add_mul_ediv_right _ _ hrest.ne', Int.ediv_eq_zero_of_lt h0 hlt, zero_add]
      have hmod : (i * shape.prod + flat shape index) % shape.prod = flat shape index := by
        rw [add_comm, Int.add_mul_emod_self_right, Int.emod_eq_of_lt h0 hlt]
      rw [flat, unflat, hdiv, hmod, ih hpos.2]

theorem length_unflat (shape : List Int) (n : Int) : (unflat shape n).length = shape.length := by
  induction shape generalizing n with
  | nil => rfl
  | cons size shape ih => rw [unflat, List.length_cons, List.length_cons, ih]

theorem flat_append (h : shape.length = index.length) :
    flat (shape ++ shape') (index ++ index') =
      flat shape index * shape'.prod + flat shape' index' := by
  induction shape generalizing index with
  | nil =>
      rw [List.length_eq_zero_iff.mp h.symm]
      simp [flat]
  | cons size shape ih =>
      cases index with
      | nil => cases h
      | cons i index =>
          rw [List.length_cons, List.length_cons, Nat.add_right_cancel_iff] at h
          rw [List.cons_append, List.cons_append, flat, flat, ih h, List.prod_append]
          ring

/-! ### Relaying -/

/-- Shapes of one number of tuples are relaid tuple by tuple. -/
theorem inBox_relayout (hpos : Positive shape) (hpos' : Positive target)
    (hprod : shape.prod = target.prod) (h : InBox target index) :
    InBox shape (relayout shape target index) :=
  inBox_unflat hpos (flat_nonneg hpos' h) (hprod ▸ flat_lt hpos' h)

theorem flat_relayout (hpos : Positive shape) (hpos' : Positive target)
    (hprod : shape.prod = target.prod) (h : InBox target index) :
    flat shape (relayout shape target index) = flat target index :=
  flat_unflat hpos (flat_nonneg hpos' h) (hprod ▸ flat_lt hpos' h)

theorem relayout_self (hpos : Positive shape) (h : InBox shape index) :
    relayout shape shape index = index := unflat_flat hpos h

theorem eq_of_flat_eq (hpos : Positive shape) (h : InBox shape index) (h' : InBox shape index')
    (heq : flat shape index = flat shape index') : index = index' := by
  rw [← unflat_flat hpos h, ← unflat_flat hpos h', heq]

/-- Groups of equal numbers are relaid one by one. -/
theorem relayout_append (hpos : Positive shape) (hpos' : Positive shape')
    (htarget : Positive target) (htarget' : Positive target') (hprod : shape.prod = target.prod)
    (hprod' : shape'.prod = target'.prod) (h : InBox target index) (h' : InBox target' index') :
    relayout (shape ++ shape') (target ++ target') (index ++ index') =
      relayout shape target index ++ relayout shape' target' index' := by
  have hbox := inBox_relayout hpos htarget hprod h
  have hbox' := inBox_relayout hpos' htarget' hprod' h'
  have hall : InBox (target ++ target') (index ++ index') := List.rel_append h h'
  have hprods : (shape ++ shape').prod = (target ++ target').prod := by
    rw [List.prod_append, List.prod_append, hprod, hprod']
  refine eq_of_flat_eq (positive_append.mpr ⟨hpos, hpos'⟩)
    (inBox_relayout (positive_append.mpr ⟨hpos, hpos'⟩) (positive_append.mpr ⟨htarget, htarget'⟩)
      hprods hall) (List.rel_append hbox hbox') ?_
  rw [flat_relayout (positive_append.mpr ⟨hpos, hpos'⟩) (positive_append.mpr ⟨htarget, htarget'⟩)
    hprods hall, flat_append h.length_eq, flat_append hbox.length_eq,
    flat_relayout hpos htarget hprod h, flat_relayout hpos' htarget' hprod' h', hprod']

/-- Several sizes onto one of the same number: the number itself. -/
theorem relayout_single (target index : List Int) (size : Int) :
    relayout [size] target index = [flat target index] := by
  simp [relayout, unflat]

/-! ### Strides -/

theorem dot_strides (unit : Int) (h : shape.length = index.length) :
    dot (strides unit shape) index = unit * flat shape index := by
  induction shape generalizing index with
  | nil =>
      rw [List.length_eq_zero_iff.mp h.symm]
      exact (mul_zero unit).symm
  | cons size shape ih =>
      cases index with
      | nil => cases h
      | cons i index =>
          rw [List.length_cons, List.length_cons, Nat.add_right_cancel_iff] at h
          rw [strides, dot, flat, ih h]
          ring

/-- Strides packed in one unit reach the same places after a relaying. -/
theorem dot_strides_relayout (unit : Int) (hpos : Positive shape) (hpos' : Positive target)
    (hprod : shape.prod = target.prod) (h : InBox target index) :
    dot (strides unit shape) (relayout shape target index) = dot (strides unit target) index := by
  rw [dot_strides unit (inBox_relayout hpos hpos' hprod h).length_eq, dot_strides unit h.length_eq,
    flat_relayout hpos hpos' hprod h]

end SymReloc.RowMajor
