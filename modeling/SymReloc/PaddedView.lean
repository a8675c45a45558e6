import Mathlib.Algebra.BigOperators.Group.List.Lemmas
import Mathlib.Data.List.Perm.Basic
import SymReloc.RowMajor

/-!
# Views over padded axes

A view reads a tensor through axes with an extent, a stride and a pad on either side: an index
inside every extent reads the source at an offset, any other lies in a pad.  Views are
permuted (`select`), padded further along one axis (`widen`), and regrouped: an axis is kept, or
a run of unpadded axes that lie packed is replaced by another of the same number.
-/

namespace SymReloc.PaddedView

open RowMajor

structure ViewAxis where
  extent : Int
  stride : Int
  lo : Int
  hi : Int
deriving DecidableEq, Repr

namespace ViewAxis

def padded (axis : ViewAxis) : Int := axis.lo + axis.extent + axis.hi

def Unpadded (axis : ViewAxis) : Prop := axis.lo = 0 ∧ axis.hi = 0

/-- The axis has an index, and its pad takes none away. -/
structure Sound (axis : ViewAxis) : Prop where
  one_le : 1 ≤ axis.extent
  lo_nonneg : 0 ≤ axis.lo
  hi_nonneg : 0 ≤ axis.hi

/-- An index that is not in the pad. -/
def Holds (axis : ViewAxis) (i : Int) : Prop := axis.lo ≤ i ∧ i < axis.lo + axis.extent

theorem Unpadded.padded_eq {axis : ViewAxis} (h : axis.Unpadded) : axis.padded = axis.extent := by
  rw [padded, h.1, h.2, zero_add, add_zero]

theorem Sound.one_le_padded {axis : ViewAxis} (h : axis.Sound) : 1 ≤ axis.padded := by
  have hextent := h.one_le
  have hlo := h.lo_nonneg
  have hhi := h.hi_nonneg
  unfold padded
  omega

end ViewAxis

def shape (axes : List ViewAxis) : List Int := axes.map ViewAxis.padded

/-- The index lies in no pad. -/
def Inside : List ViewAxis → List Int → Prop := List.Forall₂ ViewAxis.Holds

/-- Where an index inside reads. -/
def offset (axes : List ViewAxis) (index : List Int) : Int :=
  (List.zipWith (fun axis i => (i - axis.lo) * axis.stride) axes index).sum

variable {axis : ViewAxis} {axes axes' olds news runs runs' : List ViewAxis}
  {index index' : List Int}
  {moved : List (Option Nat)} {base j p k : Nat}

@[simp] theorem offset_cons (i : Int) :
    offset (axis :: axes) (i :: index) = (i - axis.lo) * axis.stride + offset axes index := by
  simp [offset]

theorem offset_append (h : axes.length = index.length) :
    offset (axes ++ axes') (index ++ index') = offset axes index + offset axes' index' := by
  rw [offset, List.zipWith_append h, List.sum_append]
  rfl

theorem shape_append (axes axes' : List ViewAxis) :
    shape (axes ++ axes') = shape axes ++ shape axes' :=
  List.map_append

theorem length_shape (axes : List ViewAxis) : (shape axes).length = axes.length := List.length_map _

theorem positive_shape (h : ∀ axis ∈ axes, axis.Sound) : Positive (shape axes) := by
  intro size hsize
  obtain ⟨axis, hmem, rfl⟩ := List.mem_map.mp hsize
  exact (h axis hmem).one_le_padded

theorem inside_append (h : axes.length = index.length) :
    Inside (axes ++ axes') (index ++ index') ↔ Inside axes index ∧ Inside axes' index' := by
  constructor
  · intro hinside
    have htake := List.forall₂_take axes.length hinside
    have hdrop := List.forall₂_drop axes.length hinside
    rw [List.take_left, h, List.take_left] at htake
    rw [List.drop_left, h, List.drop_left] at hdrop
    exact ⟨htake, hdrop⟩
  · rintro ⟨hleft, hright⟩
    exact List.rel_append hleft hright

/-! ### Runs without pads -/

theorem shape_of_unpadded (h : ∀ axis ∈ axes, axis.Unpadded) :
    shape axes = axes.map ViewAxis.extent :=
  List.map_congr_left fun axis hmem => (h axis hmem).padded_eq

theorem inside_of_unpadded (h : ∀ axis ∈ axes, axis.Unpadded) (hbox : InBox (shape axes) index) :
    Inside axes index := by
  rw [shape_of_unpadded h, InBox, List.forall₂_map_left_iff] at hbox
  induction hbox with
  | nil => exact .nil
  | @cons axis i axes index hi _ ih =>
      rw [List.forall_mem_cons] at h
      refine .cons ⟨by rw [h.1.1]; exact hi.1, ?_⟩ (ih h.2)
      rw [h.1.1, zero_add]
      exact hi.2

theorem offset_of_unpadded (h : ∀ axis ∈ axes, axis.Unpadded)
    (hlength : axes.length = index.length) :
    offset axes index = dot (axes.map ViewAxis.stride) index := by
  induction axes generalizing index with
  | nil =>
      rw [List.length_eq_zero_iff.mp hlength.symm]
      rfl
  | cons axis axes ih =>
      cases index with
      | nil => cases hlength
      | cons i index =>
          rw [List.forall_mem_cons] at h
          rw [List.length_cons, List.length_cons, Nat.add_right_cancel_iff] at hlength
          rw [offset_cons, List.map_cons, dot, ih h.2 hlength, h.1.1, sub_zero]

/-- The strides are those of a packed tensor in units of `unit`. -/
def Packed (unit : Int) (axes : List ViewAxis) : Prop :=
  axes.map ViewAxis.stride = strides unit (axes.map ViewAxis.extent)

/-- The axes of a packed tensor. -/
def packed (unit : Int) : List Int → List ViewAxis
  | [] => []
  | size :: sizes => ⟨size, unit * sizes.prod, 0, 0⟩ :: packed unit sizes

variable {unit : Int} {sizes : List Int}

theorem map_extent_packed (unit : Int) (sizes : List Int) :
    (packed unit sizes).map ViewAxis.extent = sizes := by
  induction sizes with
  | nil => rfl
  | cons size sizes ih => rw [packed, List.map_cons, ih]

theorem packed_packed (unit : Int) (sizes : List Int) : Packed unit (packed unit sizes) := by
  rw [Packed, map_extent_packed]
  induction sizes with
  | nil => rfl
  | cons size sizes ih => rw [packed, List.map_cons, strides, ih]

theorem unpadded_packed : ∀ axis ∈ packed unit sizes, axis.Unpadded := by
  induction sizes with
  | nil => exact fun axis hmem => absurd hmem List.not_mem_nil
  | cons size sizes ih =>
      intro axis hmem
      rcases List.mem_cons.mp hmem with rfl | htail
      · exact ⟨rfl, rfl⟩
      · exact ih axis htail

theorem shape_packed (unit : Int) (sizes : List Int) : shape (packed unit sizes) = sizes := by
  rw [shape_of_unpadded unpadded_packed, map_extent_packed]

/-- A packed tensor reads an index at its row-major number. -/
theorem offset_packed (hbox : InBox sizes index) :
    offset (packed unit sizes) index = unit * flat sizes index := by
  have hlength : (packed unit sizes).length = index.length := by
    rw [← length_shape, shape_packed]
    exact hbox.length_eq
  rw [offset_of_unpadded unpadded_packed hlength, packed_packed unit sizes, map_extent_packed,
    dot_strides unit hbox.length_eq]

/-! ### Regrouping -/

/-- The old axes, the new axes, numbered from `base`, and the new number of each old axis that is
    kept. -/
inductive Regroup : Nat → List ViewAxis → List ViewAxis → List (Option Nat) → Prop where
  | nil (base : Nat) : Regroup base [] [] []
  | keep {base : Nat} {axis : ViewAxis} {olds news : List ViewAxis} {moved : List (Option Nat)}
      (rest : Regroup (base + 1) olds news moved) :
      Regroup base (axis :: olds) (axis :: news) (some base :: moved)
  | relay {base : Nat} {runs runs' olds news : List ViewAxis} {moved : List (Option Nat)}
      (unit : Int)
      (hruns : ∀ axis ∈ runs, axis.Unpadded) (hruns' : ∀ axis ∈ runs', axis.Unpadded)
      (hprod : (runs.map ViewAxis.extent).prod = (runs'.map ViewAxis.extent).prod)
      (hpacked : Packed unit runs) (hpacked' : Packed unit runs')
      (rest : Regroup (base + runs'.length) olds news moved) :
      Regroup base (runs ++ olds) (runs' ++ news) (runs.map (fun _ => none) ++ moved)

namespace Regroup

theorem length_moved (h : Regroup base olds news moved) : moved.length = olds.length := by
  induction h with
  | nil => rfl
  | keep _ ih => rw [List.length_cons, List.length_cons, ih]
  | relay unit _ _ _ _ _ _ ih =>
      rw [List.length_append, List.length_append, List.length_map, ih]

theorem prod_eq (h : Regroup base olds news moved) : (shape olds).prod = (shape news).prod := by
  induction h with
  | nil => rfl
  | keep _ ih =>
      show (_ :: shape _).prod = (_ :: shape _).prod
      rw [List.prod_cons, List.prod_cons, ih]
  | relay unit hruns hruns' hprod _ _ _ ih =>
      rw [shape_append, shape_append, List.prod_append, List.prod_append, shape_of_unpadded hruns,
        shape_of_unpadded hruns', hprod, ih]

/-- An index of the new axes falls apart as the regrouping does. -/
theorem split_index (h : InBox (shape (axes ++ axes')) index) :
    ∃ left right, index = left ++ right ∧ InBox (shape axes) left ∧ InBox (shape axes') right := by
  rw [shape_append] at h
  refine ⟨index.take axes.length, index.drop axes.length, (List.take_append_drop _ _).symm, ?_, ?_⟩
  · have htake := List.forall₂_take axes.length h
    rwa [List.take_left' (length_shape axes)] at htake
  · have hdrop := List.forall₂_drop axes.length h
    rwa [List.drop_left' (length_shape axes)] at hdrop

/-- What an index of the new axes reads, and where it lies along the axes that are kept. -/
theorem relaid (h : Regroup base olds news moved) (holds : ∀ axis ∈ olds, axis.Sound)
    (hnews : ∀ axis ∈ news, axis.Sound) (hbox : InBox (shape news) index) :
    (Inside olds (relayout (shape olds) (shape news) index) ↔ Inside news index) ∧
      offset olds (relayout (shape olds) (shape news) index) = offset news index ∧
      ∀ p j : Nat, moved[p]? = some (some j) → base ≤ j ∧ olds[p]? = news[j - base]? ∧
        (relayout (shape olds) (shape news) index)[p]? = index[j - base]? := by
  induction h generalizing index with
  | nil base =>
      cases hbox
      refine ⟨Iff.rfl, rfl, fun p j hp => ?_⟩
      rw [List.getElem?_nil] at hp
      cases hp
  | @keep base axis olds news moved rest ih =>
      rw [List.forall_mem_cons] at holds hnews
      have hsplit : InBox (shape ([axis] ++ news)) _ := hbox
      obtain ⟨left, right, rfl, hleft, hright⟩ := split_index hsplit
      obtain ⟨hinside, hoffset, hkept⟩ := ih holds.2 hnews.2 hright
      have hpos : Positive (shape [axis]) := positive_shape (by simpa using holds.1)
      have hrelay : relayout (shape (axis :: olds)) (shape (axis :: news)) (left ++ right) =
          left ++ relayout (shape olds) (shape news) right := by
        have happend := relayout_append hpos (positive_shape holds.2) hpos (positive_shape hnews.2)
          rfl rest.prod_eq hleft hright
        rwa [relayout_self hpos hleft] at happend
      have hlength : [axis].length = left.length := by
        rw [← length_shape]
        exact hleft.length_eq
      rw [hrelay]
      refine ⟨?_, ?_, fun p j hp => ?_⟩
      · rw [← List.singleton_append, inside_append hlength, ← List.singleton_append (l := news),
          inside_append hlength, hinside]
      · rw [← List.singleton_append, offset_append hlength, ← List.singleton_append (l := news),
          offset_append hlength, hoffset]
      · obtain ⟨i, rfl⟩ := List.length_eq_one_iff.mp hlength.symm
        cases p with
        | zero =>
            rw [List.getElem?_cons_zero, Option.some.injEq, Option.some.injEq] at hp
            subst hp
            refine ⟨le_rfl, ?_, ?_⟩ <;> simp
        | succ p =>
            rw [List.getElem?_cons_succ] at hp
            obtain ⟨hle, holdnew, hindex⟩ := hkept p j hp
            have hj : j - base = j - (base + 1) + 1 := by omega
            refine ⟨by omega, ?_, ?_⟩
            · rw [hj, List.getElem?_cons_succ, List.getElem?_cons_succ, holdnew]
            · rw [hj, List.singleton_append, List.singleton_append, List.getElem?_cons_succ,
                List.getElem?_cons_succ, hindex]
  | @relay base runs runs' olds news moved unit hruns hruns' hprod hpacked hpacked' rest ih =>
      rw [List.forall_mem_append] at holds hnews
      obtain ⟨left, right, rfl, hleft, hright⟩ := split_index hbox
      obtain ⟨hinside, hoffset, hkept⟩ := ih holds.2 hnews.2 hright
      have hpos := positive_shape holds.1
      have hpos' := positive_shape hnews.1
      have hprods : (shape runs).prod = (shape runs').prod := by
        rw [shape_of_unpadded hruns, shape_of_unpadded hruns', hprod]
      have hrelay : relayout (shape (runs ++ olds)) (shape (runs' ++ news)) (left ++ right) =
          relayout (shape runs) (shape runs') left ++ relayout (shape olds) (shape news) right := by
        rw [shape_append, shape_append]
        exact relayout_append hpos (positive_shape holds.2) hpos' (positive_shape hnews.2)
          hprods rest.prod_eq hleft hright
      have hold := inBox_relayout hpos hpos' hprods hleft
      have hlength : runs.length = (relayout (shape runs) (shape runs') left).length := by
        rw [← length_shape runs]
        exact hold.length_eq
      have hlength' : runs'.length = left.length := by
        rw [← length_shape runs']
        exact hleft.length_eq
      rw [hrelay]
      refine ⟨?_, ?_, fun p j hp => ?_⟩
      · rw [inside_append hlength, inside_append hlength', hinside]
        exact and_congr_left fun _ =>
          iff_of_true (inside_of_unpadded hruns hold) (inside_of_unpadded hruns' hleft)
      · rw [offset_append hlength, offset_append hlength', hoffset,
          offset_of_unpadded hruns hlength,
          offset_of_unpadded hruns' hlength', hpacked, hpacked', shape_of_unpadded hruns,
          shape_of_unpadded hruns', add_left_inj]
        rw [shape_of_unpadded hruns] at hpos
        rw [shape_of_unpadded hruns'] at hpos' hleft
        exact dot_strides_relayout unit hpos hpos' hprod hleft
      · by_cases hlt : p < runs.length
        · rw [List.getElem?_append_left (by rwa [List.length_map]), List.getElem?_map,
            List.getElem?_eq_getElem hlt] at hp
          cases hp
        · rw [List.getElem?_append_right (by rw [List.length_map]; omega), List.length_map] at hp
          obtain ⟨hle, holdnew, hindex⟩ := hkept _ j hp
          have hj : j - base = runs'.length + (j - (base + runs'.length)) := by omega
          refine ⟨by omega, ?_, ?_⟩
          · rw [List.getElem?_append_right (by omega), holdnew, hj,
              List.getElem?_append_right (by omega), Nat.add_sub_cancel_left]
          · rw [List.getElem?_append_right (by omega), ← hlength, hindex, hj,
              List.getElem?_append_right (by omega), hlength', Nat.add_sub_cancel_left]

/-- A kept axis: the index along it is the index along the old one. -/
theorem kept (h : Regroup 0 olds news moved) (holds : ∀ axis ∈ olds, axis.Sound)
    (hnews : ∀ axis ∈ news, axis.Sound) (hbox : InBox (shape news) index)
    (hk : moved[k]? = some (some j)) :
    olds[k]? = news[j]? ∧ (relayout (shape olds) (shape news) index)[k]? = index[j]? :=
  ((h.relaid holds hnews hbox).2.2 k j hk).2

theorem kept_axis (h : Regroup 0 olds news moved) (holds : ∀ axis ∈ olds, axis.Sound)
    (hnews : ∀ axis ∈ news, axis.Sound) (hk : moved[k]? = some (some j)) :
    k < olds.length ∧ j < news.length ∧ olds[k]? = news[j]? := by
  have hpos := positive_shape hnews
  have hzero : InBox (shape news) (unflat (shape news) 0) :=
    inBox_unflat hpos le_rfl (by have := hpos.one_le_prod; omega)
  have hsame := (h.kept holds hnews hzero hk).1
  have hlt : k < olds.length := by
    rw [← h.length_moved]
    exact (List.getElem?_eq_some_iff.mp hk).1
  refine ⟨hlt, ?_, hsame⟩
  rw [List.getElem?_eq_getElem hlt] at hsame
  exact (List.getElem?_eq_some_iff.mp hsame.symm).1

/-- Two regroupings side by side. -/
theorem append {olds' news' : List ViewAxis} {moved' : List (Option Nat)}
    (h : Regroup base olds news moved) (h' : Regroup (base + news.length) olds' news' moved') :
    Regroup base (olds ++ olds') (news ++ news') (moved ++ moved') := by
  induction h with
  | nil => exact h'
  | keep _ ih =>
      refine .keep (ih ?_)
      rwa [List.length_cons, Nat.add_comm _ 1, ← Nat.add_assoc] at h'
  | relay unit hruns hruns' hprod hpacked hpacked' _ ih =>
      rw [List.append_assoc, List.append_assoc, List.append_assoc]
      refine .relay unit hruns hruns' hprod hpacked hpacked' (ih ?_)
      rwa [List.length_append, ← Nat.add_assoc] at h'

/-- No two old axes are kept as one. -/
theorem moved_injective {p k j : Nat} (h : Regroup base olds news moved)
    (hp : moved[p]? = some (some j))
    (hk : moved[k]? = some (some j)) : p = k := by
  have hle : ∀ {base olds news moved} {p j : Nat}, Regroup base olds news moved →
      moved[p]? = some (some j) → base ≤ j := by
    intro base olds news moved p j h
    induction h generalizing p with
    | nil => intro hp; cases hp
    | keep _ ih =>
        intro hp
        cases p with
        | zero =>
            rw [List.getElem?_cons_zero, Option.some.injEq, Option.some.injEq] at hp
            omega
        | succ p =>
            rw [List.getElem?_cons_succ] at hp
            have := ih hp
            omega
    | @relay _ runs _ _ _ _ _ _ _ _ _ _ _ ih =>
        intro hp
        rw [List.getElem?_append] at hp
        split at hp
        · rw [List.getElem?_map] at hp
          cases hrun : runs[p]? <;> rw [hrun] at hp <;> cases hp
        · have := ih hp
          omega
  induction h generalizing p k with
  | nil => cases hp
  | keep rest ih =>
      cases p with
      | zero =>
          cases k with
          | zero => rfl
          | succ k =>
              rw [List.getElem?_cons_zero, Option.some.injEq, Option.some.injEq] at hp
              rw [List.getElem?_cons_succ] at hk
              have := hle rest hk
              omega
      | succ p =>
          cases k with
          | zero =>
              rw [List.getElem?_cons_zero, Option.some.injEq, Option.some.injEq] at hk
              rw [List.getElem?_cons_succ] at hp
              have := hle rest hp
              omega
          | succ k => rw [ih hp hk]
  | @relay _ runs _ _ _ _ _ _ _ _ _ _ _ ih =>
      rw [List.getElem?_append] at hp hk
      split at hp
      · rw [List.getElem?_map] at hp
        cases hrun : runs[p]? <;> rw [hrun] at hp <;> cases hp
      · split at hk
        · rw [List.getElem?_map] at hk
          cases hrun : runs[k]? <;> rw [hrun] at hk <;> cases hk
        · have := ih hp hk
          omega

/-- An axis that no old one is kept as has no pad. -/
theorem kept_or_unpadded (h : Regroup base olds news moved) (hj : news[j]? = some axis) :
    (∃ p : Nat, moved[p]? = some (some (base + j)) ∧ olds[p]? = some axis) ∨ axis.Unpadded := by
  induction h generalizing j with
  | nil => cases hj
  | @keep base _ olds news moved _ ih =>
      cases j with
      | zero => exact .inl ⟨0, rfl, hj⟩
      | succ j =>
          rcases ih hj with ⟨p, hp, hold⟩ | hfree
          · refine .inl ⟨p + 1, ?_, hold⟩
            rw [List.getElem?_cons_succ, hp]
            congr 2
            omega
          · exact .inr hfree
  | @relay base runs runs' olds news moved _ _ hruns' _ _ _ _ ih =>
      rw [List.getElem?_append] at hj
      split at hj
      · exact .inr (hruns' axis (List.mem_of_getElem? hj))
      · rename_i hge
        rcases ih hj with ⟨p, hp, hold⟩ | hfree
        · refine .inl ⟨runs.length + p, ?_, ?_⟩
          · rw [List.getElem?_append_right (by rw [List.length_map]; omega), List.length_map,
              Nat.add_sub_cancel_left, hp]
            congr 2
            omega
          · rw [List.getElem?_append_right (by omega), Nat.add_sub_cancel_left, hold]
        · exact .inr hfree

end Regroup

/-! ### Permuting -/

section Select

variable {α β : Type} {values : List α} {others : List β} {perm : List Nat}

/-- The values at the places of a list. -/
def select (values : List α) (perm : List Nat) : List α := perm.filterMap fun k => values[k]?

theorem mapM_getElem? {out : List α} (h : perm.mapM (fun k => values[k]?) = some out) :
    out = select values perm := by
  induction perm generalizing out with
  | nil => exact (Option.some.inj h).symm
  | cons k perm ih =>
      rw [List.mapM_cons] at h
      cases hk : values[k]? with
      | none =>
          rw [hk] at h
          cases h
      | some value =>
          rw [hk] at h
          cases hrest : perm.mapM fun k => values[k]? with
          | none =>
              rw [hrest] at h
              cases h
          | some rest =>
              rw [hrest] at h
              cases h
              rw [select, List.filterMap_cons, hk, ih hrest]
              rfl

theorem select_range (values : List α) : select values (List.range values.length) = values := by
  induction values with
  | nil => rfl
  | cons value values ih =>
      rw [select, List.length_cons, List.range_succ_eq_map, List.filterMap_cons,
        List.getElem?_cons_zero, List.filterMap_map]
      exact congrArg (value :: ·) ih

theorem select_perm (h : perm.Perm (List.range values.length)) :
    (select values perm).Perm values := by
  have hall := h.filterMap fun k => values[k]?
  rwa [← select, ← select, select_range] at hall

theorem getElem?_select (h : ∀ k ∈ perm, k < values.length) (place : Nat) :
    (select values perm)[place]? = perm[place]?.bind fun k => values[k]? := by
  induction perm generalizing place with
  | nil => rfl
  | cons k perm ih =>
      rw [List.forall_mem_cons] at h
      rw [select, List.filterMap_cons, List.getElem?_eq_getElem h.1]
      cases place with
      | zero => simp [h.1]
      | succ place =>
          rw [List.getElem?_cons_succ, List.getElem?_cons_succ]
          exact ih h.2 place

theorem length_select (h : ∀ k ∈ perm, k < values.length) :
    (select values perm).length = perm.length := by
  induction perm with
  | nil => rfl
  | cons k perm ih =>
      rw [List.forall_mem_cons] at h
      rw [select, List.filterMap_cons, List.getElem?_eq_getElem h.1, List.length_cons,
        List.length_cons]
      exact congrArg (· + 1) (ih h.2)

theorem select_zip (hlength : values.length = others.length)
    (h : ∀ k ∈ perm, k < values.length) :
    select (values.zip others) perm = (select values perm).zip (select others perm) := by
  induction perm with
  | nil => rfl
  | cons k perm ih =>
      rw [List.forall_mem_cons] at h
      have hk : k < others.length := hlength ▸ h.1
      have hzip : (values.zip others)[k]? =
          some (values.get ⟨k, h.1⟩, others.get ⟨k, hk⟩) := by
        rw [List.getElem?_zip_eq_some]
        exact ⟨List.getElem?_eq_getElem h.1, List.getElem?_eq_getElem hk⟩
      have hrest := ih h.2
      rw [select] at hrest ⊢
      rw [List.filterMap_cons, hzip, select, List.filterMap_cons, List.getElem?_eq_getElem h.1,
        select, List.filterMap_cons, List.getElem?_eq_getElem hk, hrest]
      rfl

theorem mem_lt_of_perm (h : perm.Perm (List.range k)) : ∀ place ∈ perm, place < k :=
  fun _ hi => List.mem_range.mp (h.mem_iff.mp hi)

/-- Two lists permuted alike are related as they were. -/
theorem forall₂_select {R : α → β → Prop} (h : perm.Perm (List.range values.length))
    (hlength : values.length = others.length) :
    List.Forall₂ R (select values perm) (select others perm) ↔ List.Forall₂ R values others := by
  have hlt := mem_lt_of_perm h
  have hlt' := mem_lt_of_perm (hlength ▸ h)
  rw [List.forall₂_iff_zip, List.forall₂_iff_zip, ← select_zip hlength hlt, length_select hlt,
    length_select hlt']
  have hmem : ∀ {pair}, pair ∈ select (values.zip others) perm ↔ pair ∈ values.zip others := by
    intro pair
    refine (select_perm ?_).mem_iff
    rwa [List.length_zip, ← hlength, min_self]
  exact ⟨fun hall => ⟨hlength, fun hpair => hall.2 (hmem.mpr hpair)⟩,
    fun hall => ⟨rfl, fun hpair => hall.2 (hmem.mp hpair)⟩⟩

/-- The index that a permutation of the axes brings an index from. -/
def restore (perm : List Nat) (index : List Int) : List Int :=
  (List.range perm.length).map fun k => index.getD (perm.idxOf k) 0

theorem length_restore (perm : List Nat) (index : List Int) :
    (restore perm index).length = perm.length := by
  rw [restore, List.length_map, List.length_range]

theorem select_restore (h : perm.Perm (List.range perm.length))
    (hlength : index.length = perm.length) : select (restore perm index) perm = index := by
  have hlt := mem_lt_of_perm h
  apply List.ext_getElem?
  intro i
  rw [getElem?_select (by rwa [length_restore])]
  by_cases hi : i < perm.length
  · have hnodup : perm.Nodup := h.nodup_iff.mpr List.nodup_range
    have hk := hlt _ (List.getElem_mem hi)
    rw [List.getElem?_eq_getElem hi, Option.bind_some, restore, List.getElem?_map,
      List.getElem?_range hk, Option.map_some, hnodup.idxOf_getElem,
      List.getD_eq_getElem?_getD, List.getElem?_eq_getElem (by omega)]
    rfl
  · rw [List.getElem?_eq_none (by omega), List.getElem?_eq_none (by omega)]
    rfl

end Select

/-- A permuted view reads what the view read. -/
theorem offset_select {perm : List Nat} (h : perm.Perm (List.range axes.length))
    (hlength : axes.length = index.length) :
    offset (select axes perm) (select index perm) = offset axes index := by
  have hzip : ∀ (axes : List ViewAxis) (index : List Int), offset axes index =
      ((axes.zip index).map fun pair => (pair.2 - pair.1.lo) * pair.1.stride).sum := by
    intro axes index
    rw [offset, List.map_zip_eq_zipWith]
    rfl
  rw [hzip, hzip, ← select_zip hlength (mem_lt_of_perm h)]
  refine List.Perm.sum_eq ((select_perm ?_).map _)
  rwa [List.length_zip, ← hlength, min_self]

/-! ### Padding further -/

/-- The axis with more on either side. -/
def ViewAxis.widen (axis : ViewAxis) (lo hi : Int) : ViewAxis :=
  { axis with lo := axis.lo + lo, hi := axis.hi + hi }

/-- A widened view reads at an index what the view read at the index less the width. -/
theorem widen (lo hi : Int) {i : Int} (hk : axes[k]? = some axis) (hindex : index[k]? = some i) :
    (Inside (axes.set k (axis.widen lo hi)) index ↔ Inside axes (index.set k (i - lo))) ∧
      offset (axes.set k (axis.widen lo hi)) index = offset axes (index.set k (i - lo)) := by
  induction axes generalizing k index with
  | nil => cases hk
  | cons head axes ih =>
      cases index with
      | nil => cases hindex
      | cons first index =>
          cases k with
          | zero =>
              rw [List.getElem?_cons_zero, Option.some.injEq] at hk hindex
              subst hk hindex
              rw [List.set_cons_zero, List.set_cons_zero, offset_cons, offset_cons, Inside,
                List.forall₂_cons, List.forall₂_cons]
              have hholds : (head.widen lo hi).Holds first ↔ head.Holds (first - lo) := by
                simp only [ViewAxis.Holds, ViewAxis.widen]
                omega
              refine ⟨and_congr_left fun _ => hholds, ?_⟩
              unfold ViewAxis.widen
              ring
          | succ k =>
              rw [List.getElem?_cons_succ] at hk hindex
              obtain ⟨hinside, hoffset⟩ := ih hk hindex
              rw [List.set_cons_succ, List.set_cons_succ, offset_cons, offset_cons, hoffset, Inside,
                List.forall₂_cons, List.forall₂_cons]
              exact ⟨and_congr_right fun _ => hinside, rfl⟩

end SymReloc.PaddedView
