import SymReloc.Runtime.Bind
import SymReloc.Runtime.Machine
import SymReloc.Strides

/-!
# The index spaces of a bound plan

The executors walk the valid indices of a bound plan; on the destination side an
index is shifted by the leading pad of its axis and counts up to the padded
extent.  `WalkAxis` keeps the per-axis vectors of the source (`extents`,
`srcStrides`, `dstStrides`, `lo`, and the padded extents) together.
-/

namespace SymReloc

open Outcome

structure WalkAxis where
  extent : Int
  srcStride : Int
  dstStride : Int
  lo : Int
  hi : Int
deriving DecidableEq, Repr

def WalkAxis.padded (axis : WalkAxis) : Int := axis.extent + axis.lo + axis.hi

/-- The axis as the source and as the padded destination see it. -/
def WalkAxis.source (axis : WalkAxis) : Strides.Axis := ⟨axis.extent, axis.srcStride⟩
def WalkAxis.target (axis : WalkAxis) : Strides.Axis := ⟨axis.padded, axis.dstStride⟩

def PadRegion.attach (region : PadRegion) (axis : WalkAxis) : WalkAxis :=
  { axis with lo := region.lo, hi := region.hi }

/-- The axes without their pads. -/
def BoundPlan.bareAxes (bound : BoundPlan) : List WalkAxis :=
  (bound.extents.zip (bound.srcStrides.zip bound.dstStrides)).map fun entry =>
    { extent := entry.1, srcStride := entry.2.1, dstStride := entry.2.2, lo := 0, hi := 0 }

def attachRegions (axes : List WalkAxis) (regions : List PadRegion) : List WalkAxis :=
  regions.foldl (fun axes region => axes.modify region.axis region.attach) axes

def BoundPlan.walkAxes (bound : BoundPlan) : List WalkAxis :=
  attachRegions bound.bareAxes bound.padRegions

/-- `padded[p.axis] += p.lo + p.hi`, over all regions. -/
def padExtents {ε : Type} (padded : List Int) : List PadRegion → Outcome ε (List Int)
  | [] => .ok padded
  | region :: rest => do
      let current ← fetch padded region.axis
      let width ← add64 region.lo region.hi
      let widened ← add64 current width
      padExtents (padded.set region.axis widened) rest

/-! ### Indices and offsets -/

/-- The index is a valid one: it counts source elements on every axis. -/
def Valid : List WalkAxis → List Int → Prop :=
  List.Forall₂ fun axis i => 0 ≤ i ∧ i < axis.extent

def srcOffset : List WalkAxis → List Int → Int
  | axis :: axes, i :: index => i * axis.srcStride + srcOffset axes index
  | _, _ => 0

def dstOffset : List WalkAxis → List Int → Int
  | axis :: axes, i :: index => (i + axis.lo) * axis.dstStride + dstOffset axes index
  | _, _ => 0

/-- The destination coordinates of a valid index. -/
def shift : List WalkAxis → List Int → List Int
  | axis :: axes, i :: index => (i + axis.lo) :: shift axes index
  | _, _ => []

/-- The coordinates lie in no pad range. -/
def Interior : List WalkAxis → List Int → Prop :=
  List.Forall₂ fun axis p => axis.lo ≤ p ∧ p < axis.lo + axis.extent

def unshift : List WalkAxis → List Int → List Int
  | axis :: axes, p :: coords => (p - axis.lo) :: unshift axes coords
  | _, _ => []

/-- Every axis has an index and no pad is negative. -/
def Padded (axes : List WalkAxis) : Prop :=
  ∀ axis ∈ axes, 1 ≤ axis.extent ∧ 0 ≤ axis.lo ∧ 0 ≤ axis.hi

variable {axes : List WalkAxis} {index index' : List Int}

@[simp] theorem padded_cons {axis : WalkAxis} :
    Padded (axis :: axes) ↔ (1 ≤ axis.extent ∧ 0 ≤ axis.lo ∧ 0 ≤ axis.hi) ∧ Padded axes :=
  List.forall_mem_cons

theorem srcOffset_eq (axes : List WalkAxis) (index : List Int) :
    srcOffset axes index = Strides.offset (axes.map WalkAxis.source) index := by
  induction axes generalizing index with
  | nil => rfl
  | cons axis axes ih =>
      cases index with
      | nil => rfl
      | cons i index => exact congrArg (i * axis.srcStride + ·) (ih index)

theorem dstOffset_eq (axes : List WalkAxis) (index : List Int) :
    dstOffset axes index = Strides.offset (axes.map WalkAxis.target) (shift axes index) := by
  induction axes generalizing index with
  | nil => rfl
  | cons axis axes ih =>
      cases index with
      | nil => rfl
      | cons i index => exact congrArg ((i + axis.lo) * axis.dstStride + ·) (ih index)

theorem Valid.inBox_source (h : Valid axes index) :
    Strides.InBox (axes.map WalkAxis.source) index := by
  induction h with
  | nil => exact .nil
  | cons hi _ ih => exact .cons hi ih

theorem Valid.inBox_target (h : Valid axes index) (hpadded : Padded axes) :
    Strides.InBox (axes.map WalkAxis.target) (shift axes index) := by
  induction h with
  | nil => exact .nil
  | cons hi _ ih =>
      rw [padded_cons] at hpadded
      obtain ⟨⟨-, hlo, hhi⟩, hrest⟩ := hpadded
      refine .cons ⟨by omega, ?_⟩ (ih hrest)
      simp only [WalkAxis.target, WalkAxis.padded]
      omega

theorem Valid.unshift_shift (h : Valid axes index) : unshift axes (shift axes index) = index := by
  induction h with
  | nil => rfl
  | cons hi _ ih => simp only [shift, unshift, ih, Int.add_sub_cancel]

theorem Interior.valid_unshift {coords : List Int} (h : Interior axes coords) :
    Valid axes (unshift axes coords) := by
  induction h with
  | nil => exact .nil
  | cons hp _ ih => exact .cons ⟨by omega, by omega⟩ ih

theorem Interior.shift_unshift {coords : List Int} (h : Interior axes coords) :
    shift axes (unshift axes coords) = coords := by
  induction h with
  | nil => rfl
  | cons hp _ ih => simp only [shift, unshift, ih, Int.sub_add_cancel]

theorem Valid.head {axis : WalkAxis} (h : Valid (axis :: axes) index) :
    0 ≤ index.headI ∧ index.headI < axis.extent := by
  cases h with
  | cons hi _ => exact hi

/-- Without pads every coordinate tuple is a valid index. -/
theorem interior_of_bare {coords : List Int} (hbare : ∀ axis ∈ axes, axis.lo = 0 ∧ axis.hi = 0)
    (hbox : Strides.InBox (axes.map WalkAxis.target) coords) : Interior axes coords := by
  induction axes generalizing coords with
  | nil =>
      cases hbox
      exact .nil
  | cons axis axes ih =>
      cases hbox with
      | cons hp hrest =>
          obtain ⟨hlo, hhi⟩ := hbare axis (by simp)
          simp only [WalkAxis.target, WalkAxis.padded] at hp
          exact .cons ⟨by omega, by omega⟩ (ih (fun a ha => hbare a (by simp [ha])) hrest)

/-! ### The padded extents -/

theorem padExtents_eq_ok {ε : Type} {axes : List WalkAxis} {regions : List PadRegion}
    {padded : List Int} (hbare : ∀ region ∈ regions, ∀ axis, axes[region.axis]? = some axis →
      axis.lo = 0 ∧ axis.hi = 0) (hnodup : (regions.map PadRegion.axis).Nodup)
    (hrun : (padExtents (axes.map WalkAxis.padded) regions : Outcome ε _) = .ok padded) :
    padded = (attachRegions axes regions).map WalkAxis.padded := by
  induction regions generalizing axes with
  | nil =>
      cases hrun
      rfl
  | cons region rest ih =>
      simp only [padExtents, bind_ok_iff, fetch_eq_ok, add64_eq_ok] at hrun
      obtain ⟨current, hcurrent, width, ⟨-, rfl⟩, widened, ⟨-, rfl⟩, hrest⟩ := hrun
      rw [List.getElem?_map, Option.map_eq_some_iff] at hcurrent
      obtain ⟨axis, haxis, rfl⟩ := hcurrent
      obtain ⟨hlo, hhi⟩ := hbare region (by simp) axis haxis
      rw [List.map_cons, List.nodup_cons] at hnodup
      have hset : (axes.map WalkAxis.padded).set region.axis (axis.padded + (region.lo + region.hi))
          = (axes.modify region.axis region.attach).map WalkAxis.padded := by
        apply List.ext_getElem?
        intro k
        rw [List.getElem?_set, List.getElem?_map, List.getElem?_map, List.getElem?_modify,
          List.length_map]
        by_cases hk : region.axis = k
        · subst hk
          obtain ⟨hlt, rfl⟩ := List.getElem?_eq_some_iff.mp haxis
          have hsum : axes[region.axis].padded + (region.lo + region.hi)
              = (region.attach axes[region.axis]).padded := by
            simp only [WalkAxis.padded, PadRegion.attach]
            omega
          simp [hlt, hsum]
        · simp [hk]
      rw [hset] at hrest
      refine ih ?_ hnodup.2 hrest
      intro other hother axis' haxis'
      have hne : region.axis ≠ other.axis := fun heq =>
        hnodup.1 (heq ▸ List.mem_map_of_mem hother)
      rw [List.getElem?_modify] at haxis'
      simp only [if_neg hne, Option.map_eq_map, Option.map_id_fun', id_eq] at haxis'
      exact hbare other (by simp [hother]) axis' haxis'

end SymReloc
