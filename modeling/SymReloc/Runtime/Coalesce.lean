import SymReloc.Runtime.Execute

/-!
# Merging axes at bind time

`bind` merges adjacent axes that are contiguous on both sides.  A merged axis stands
for a run of original axes; walking it visits the same offsets in the same order, a
padded axis is never part of a larger run, and the loop ends when no pair of
neighbours can be merged.
-/

namespace SymReloc

open Outcome

/-! ### The walk of an index space -/

/-- The pairs of source and destination offsets of the valid indices, the innermost
    axis fastest. -/
def visits : List WalkAxis → Int → Int → List (Int × Int)
  | [], src, dst => [(src, dst)]
  | axis :: rest, src, dst => (intRange 0 axis.extent).flatMap fun i =>
      visits rest (src + i * axis.srcStride) (dst + (i + axis.lo) * axis.dstStride)

theorem range_mul (m n : Nat) :
    List.range (m * n) = (List.range m).flatMap fun i => (List.range n).map fun j => i * n + j := by
  induction m with
  | zero => simp
  | succ m ih =>
      rw [Nat.succ_mul, List.range_add, ih, List.range_succ, List.flatMap_append]
      simp

/-- The indices of two nested loops, numbered through. -/
theorem intRange_mul {m n : Int} (hm : 0 ≤ m) (hn : 0 ≤ n) :
    intRange 0 (m * n) =
      (intRange 0 m).flatMap fun i => (intRange 0 n).map fun j => i * n + j := by
  obtain ⟨m, rfl⟩ := Int.eq_ofNat_of_zero_le hm
  obtain ⟨n, rfl⟩ := Int.eq_ofNat_of_zero_le hn
  have hmul : ((m : Int) * n).toNat = m * n := by rw [← Nat.cast_mul, Int.toNat_natCast]
  simp only [intRange, sub_zero, hmul, range_mul, List.map_flatMap, List.flatMap_map,
    List.map_map, Int.toNat_natCast]
  congr 1
  funext i
  congr 1
  funext j
  simp

/-- The valid indices of a box, the innermost axis fastest. -/
def indices : List Int → List (List Int)
  | [] => [[]]
  | extent :: rest => (intRange 0 extent).flatMap fun i => (indices rest).map (i :: ·)

theorem mem_indices {axes : List WalkAxis} {index : List Int} :
    index ∈ indices (axes.map WalkAxis.extent) ↔ Valid axes index := by
  induction axes generalizing index with
  | nil =>
      rw [List.map_nil, indices, List.mem_singleton]
      exact List.forall₂_nil_left_iff.symm
  | cons axis axes ih =>
      simp only [List.map_cons, indices, List.mem_flatMap, List.mem_map, mem_intRange, ih]
      constructor
      · rintro ⟨i, hi, rest, hrest, rfl⟩
        exact .cons hi hrest
      · rintro (_ | ⟨hi, hrest⟩)
        exact ⟨_, hi, _, hrest, rfl⟩

/-- A visit for every valid index. -/
theorem visits_eq_map (axes : List WalkAxis) (src dst : Int) :
    visits axes src dst = (indices (axes.map WalkAxis.extent)).map fun index =>
      (src + srcOffset axes index, dst + dstOffset axes index) := by
  induction axes generalizing src dst with
  | nil => simp [visits, indices, srcOffset, dstOffset]
  | cons axis axes ih =>
      simp only [visits, List.map_cons, indices, List.map_flatMap, List.map_map, ih]
      congr 1
      funext i
      congr 1
      funext index
      simp [srcOffset, dstOffset, add_assoc]

/-- The bytes a gather moves are those of the visited cells. -/
theorem gathers_iff_visits {es : Nat} {axis : WalkAxis} {axes : List WalkAxis} {d s : Int} :
    Gathers es (axis :: axes) 0 axis.extent 0 0 d s ↔
      ∃ cell ∈ visits (axis :: axes) 0 0, ∃ j : Int, 0 ≤ j ∧ j < es ∧
        d = cell.2 * es + j ∧ s = cell.1 * es + j := by
  rw [visits_eq_map]
  simp only [List.mem_map, mem_indices]
  constructor
  · rintro ⟨index, j, hvalid, -, -, hj, hjlt, hd, hs⟩
    exact ⟨_, ⟨index, hvalid, rfl⟩, j, hj, hjlt, hd, hs⟩
  · rintro ⟨_, ⟨index, hvalid, rfl⟩, j, hj, hjlt, hd, hs⟩
    exact ⟨index, j, hvalid, hvalid.head.1, hvalid.head.2, hj, hjlt, hd, hs⟩

def ConcreteAxis.walk (axis : ConcreteAxis) : WalkAxis where
  extent := axis.extent
  srcStride := axis.srcStride
  dstStride := axis.dstStride
  lo := axis.lo
  hi := axis.hi

/-- What `bind` has checked of a concrete axis. -/
structure ConcreteAxis.Sound (axis : ConcreteAxis) : Prop where
  extent : 1 ≤ axis.extent
  src : 0 ≤ axis.srcStride
  dst : 0 ≤ axis.dstStride
  pads : 0 ≤ axis.lo ∧ 0 ≤ axis.hi
  bare : axis.padded = false → axis.lo = 0 ∧ axis.hi = 0

/-! ### One merge -/

section Merge

variable {outer inner merged : ConcreteAxis}

/-- Two neighbours that can be merged, with every product in range. -/
structure Mergeable (outer inner : ConcreteAxis) : Prop where
  outer_bare : outer.padded = false
  inner_bare : inner.padded = false
  src : FitsI64 (inner.srcStride * inner.extent)
  dst : FitsI64 (inner.dstStride * inner.extent)
  extent : FitsI64 (outer.extent * inner.extent)
  src_eq : outer.srcStride = inner.srcStride * inner.extent
  dst_eq : outer.dstStride = inner.dstStride * inner.extent

theorem mergeAxes_eq_some : mergeAxes outer inner = some merged ↔ Mergeable outer inner ∧
    merged = { extent := outer.extent * inner.extent, srcStride := inner.srcStride,
               dstStride := inner.dstStride, padded := false, lo := 0, hi := 0,
               fillBits := 0 } := by
  unfold mergeAxes
  by_cases hpadded : outer.padded = true ∨ inner.padded = true
  · rw [if_pos hpadded]
    constructor
    · intro h
      cases h
    · rintro ⟨h, -⟩
      rw [h.outer_bare, h.inner_bare] at hpadded
      simp at hpadded
  · rw [if_neg hpadded]
    simp only [not_or, Bool.not_eq_true] at hpadded
    simp only [Option.bind_eq_bind, Option.bind_eq_some_iff, checked64_eq_some]
    constructor
    · rintro ⟨_, ⟨hsrc, rfl⟩, _, ⟨hdst, rfl⟩, _, ⟨hextent, rfl⟩, h⟩
      split at h
      · rename_i hstrides
        cases h
        exact ⟨⟨hpadded.1, hpadded.2, hsrc, hdst, hextent, hstrides.1, hstrides.2⟩, rfl⟩
      · cases h
    · rintro ⟨h, rfl⟩
      refine ⟨_, ⟨h.src, rfl⟩, _, ⟨h.dst, rfl⟩, _, ⟨h.extent, rfl⟩, ?_⟩
      rw [if_pos ⟨h.src_eq, h.dst_eq⟩]

theorem mergeAxes_eq_none : mergeAxes outer inner = none ↔ ¬ Mergeable outer inner := by
  rw [Option.eq_none_iff_forall_ne_some]
  constructor
  · intro h hmergeable
    exact h _ (mergeAxes_eq_some.mpr ⟨hmergeable, rfl⟩)
  · intro h merged hmerged
    exact h (mergeAxes_eq_some.mp hmerged).1

theorem ConcreteAxis.Sound.merge (houter : outer.Sound) (hinner : inner.Sound)
    (h : mergeAxes outer inner = some merged) : merged.Sound := by
  obtain ⟨-, rfl⟩ := mergeAxes_eq_some.mp h
  refine ⟨?_, hinner.src, hinner.dst, ⟨le_refl 0, le_refl 0⟩, fun _ => ⟨rfl, rfl⟩⟩
  have hprod := mul_le_mul houter.extent hinner.extent (by decide) (by have := houter.extent; omega)
  simpa using hprod

/-- Walking the merged axis is walking the two. -/
theorem visits_merge (houter : outer.Sound) (hinner : inner.Sound)
    (h : mergeAxes outer inner = some merged) (rest : List WalkAxis) (src dst : Int) :
    visits (outer.walk :: inner.walk :: rest) src dst = visits (merged.walk :: rest) src dst := by
  obtain ⟨hmergeable, rfl⟩ := mergeAxes_eq_some.mp h
  have houterLo := (houter.bare hmergeable.outer_bare).1
  have hinnerLo := (hinner.bare hmergeable.inner_bare).1
  have hpos := houter.extent
  have hpos' := hinner.extent
  simp only [visits, ConcreteAxis.walk, intRange_mul (by omega : 0 ≤ outer.extent)
    (by omega : 0 ≤ inner.extent), List.flatMap_assoc, List.flatMap_map, houterLo, hinnerLo,
    hmergeable.src_eq, hmergeable.dst_eq]
  congr 1
  funext i
  congr 1
  funext j
  congr 1
  · ring
  · ring

end Merge

/-! ### Runs of axes -/

/-- The axis stands for a run of original axes. -/
inductive Merges : List ConcreteAxis → ConcreteAxis → Prop where
  | single (axis : ConcreteAxis) : Merges [axis] axis
  | merge {left right : List ConcreteAxis} {outer inner merged : ConcreteAxis} :
      Merges left outer → Merges right inner → mergeAxes outer inner = some merged →
        Merges (left ++ right) merged

/-- The cells of an axis on the destination side. -/
def ConcreteAxis.cells (axis : ConcreteAxis) : Int := axis.extent + axis.lo + axis.hi

namespace Merges

variable {run : List ConcreteAxis} {axis : ConcreteAxis}

theorem ne_nil (h : Merges run axis) : run ≠ [] := by
  induction h with
  | single axis => simp
  | merge _ _ _ ihl _ => simp [ihl]

theorem sound (h : Merges run axis) (hrun : ∀ a ∈ run, a.Sound) : axis.Sound := by
  induction h with
  | single axis => exact hrun axis (List.mem_singleton_self _)
  | merge _ _ hmerge ihl ihr =>
      exact (ihl fun a ha => hrun a (by simp [ha])).merge (ihr fun a ha => hrun a (by simp [ha]))
        hmerge

theorem visits_eq (h : Merges run axis) (hrun : ∀ a ∈ run, a.Sound) (rest : List WalkAxis)
    (src dst : Int) :
    visits (run.map ConcreteAxis.walk ++ rest) src dst = visits (axis.walk :: rest) src dst := by
  induction h generalizing rest src dst with
  | single axis => rfl
  | merge hleft hright hmerge ihl ihr =>
      have hsoundl := fun a ha => hrun a (List.mem_append_left _ ha)
      have hsoundr := fun a ha => hrun a (List.mem_append_right _ ha)
      rw [List.map_append, List.append_assoc, ihl hsoundl, ← visits_merge (hleft.sound hsoundl)
        (hright.sound hsoundr) hmerge, visits, visits]
      congr 1
      funext i
      exact ihr hsoundr _ _ _

/-- A padded axis is a run of its own. -/
theorem eq_singleton (h : Merges run axis) {a : ConcreteAxis} (hmem : a ∈ run)
    (hpadded : a.padded = true) : run = [a] ∧ axis = a := by
  have hbare : ∀ {run axis}, Merges run axis → axis.padded = false →
      ∀ a ∈ run, a.padded = false := by
    intro run axis h
    induction h with
    | single axis =>
        intro haxis a ha
        rwa [List.mem_singleton.mp ha]
    | merge _ _ hmerge ihl ihr =>
        intro _ a ha
        have hmergeable := (mergeAxes_eq_some.mp hmerge).1
        rcases List.mem_append.mp ha with ha | ha
        · exact ihl hmergeable.outer_bare a ha
        · exact ihr hmergeable.inner_bare a ha
  cases h with
  | single axis =>
      obtain rfl := List.mem_singleton.mp hmem
      exact ⟨rfl, rfl⟩
  | merge hleft hright hmerge =>
      obtain ⟨hmergeable, rfl⟩ := mergeAxes_eq_some.mp hmerge
      have := hbare (.merge hleft hright hmerge) rfl a hmem
      rw [hpadded] at this
      cases this

/-- Only a run of one axis gives a padded axis. -/
theorem eq_of_padded (h : Merges run axis) (hpadded : axis.padded = true) : run = [axis] := by
  cases h with
  | single axis => rfl
  | merge _ _ hmerge =>
      obtain ⟨-, rfl⟩ := mergeAxes_eq_some.mp hmerge
      cases hpadded

theorem cells_eq (h : Merges run axis) (hrun : ∀ a ∈ run, a.Sound) :
    axis.cells = (run.map ConcreteAxis.cells).prod := by
  induction h with
  | single axis => simp
  | merge hleft hright hmerge ihl ihr =>
      have hsoundl := fun a ha => hrun a (List.mem_append_left _ ha)
      have hsoundr := fun a ha => hrun a (List.mem_append_right _ ha)
      obtain ⟨hmergeable, rfl⟩ := mergeAxes_eq_some.mp hmerge
      have hl := (hleft.sound hsoundl).bare hmergeable.outer_bare
      have hr := (hright.sound hsoundr).bare hmergeable.inner_bare
      rw [List.map_append, List.prod_append, ← ihl hsoundl, ← ihr hsoundr]
      simp [ConcreteAxis.cells, hl, hr]

end Merges

/-- The merged axes stand for the given runs, with their lengths. -/
def StandFor (runs : List (List ConcreteAxis)) (merged : List (ConcreteAxis × Nat)) : Prop :=
  List.Forall₂ (fun run entry => Merges run entry.1 ∧ run.length = entry.2) runs merged

section Loop

variable {axes : List ConcreteAxis} {runs : List (List ConcreteAxis)}
  {merged merged' : List (ConcreteAxis × Nat)}

theorem standFor_singletons (axes : List ConcreteAxis) :
    StandFor (axes.map fun axis => [axis]) (axes.map fun axis => (axis, 1)) := by
  induction axes with
  | nil => exact .nil
  | cons axis axes ih => exact .cons ⟨.single axis, rfl⟩ ih

/-- One pass joins two neighbouring runs. -/
theorem StandFor.step (h : StandFor runs merged) (hstep : coalesceStep merged = some merged') :
    ∃ runs', StandFor runs' merged' ∧ runs'.flatten = runs.flatten := by
  induction h generalizing merged' with
  | nil => cases hstep
  | @cons left outer runs merged hleft hrest ih =>
      cases hrest with
      | nil => cases hstep
      | @cons right inner runs merged hright hrest =>
          unfold coalesceStep at hstep
          split at hstep
          · rename_i axis hmerge
            cases hstep
            refine ⟨(left ++ right) :: runs, .cons ⟨.merge hleft.1 hright.1 hmerge, ?_⟩ hrest, ?_⟩
            · rw [List.length_append, hleft.2, hright.2]
            · simp
          · obtain ⟨rest', hrest', rfl⟩ := Option.map_eq_some_iff.mp hstep
            obtain ⟨runs', hruns', hflatten⟩ := ih hrest'
            exact ⟨left :: runs', .cons hleft hruns', congrArg (left ++ ·) hflatten⟩

theorem StandFor.loop (h : StandFor runs merged) (fuel : Nat) :
    ∃ runs', StandFor runs' (coalesceLoop fuel merged) ∧ runs'.flatten = runs.flatten := by
  induction fuel generalizing runs merged with
  | zero => exact ⟨runs, h, rfl⟩
  | succ fuel ih =>
      unfold coalesceLoop
      split
      · rename_i merged' hstep
        obtain ⟨runs', h', hflatten⟩ := h.step hstep
        obtain ⟨runs'', h'', hflatten'⟩ := ih h'
        exact ⟨runs'', h'', hflatten'.trans hflatten⟩
      · exact ⟨runs, h, rfl⟩

theorem exists_runs (axes : List ConcreteAxis) :
    ∃ runs, StandFor runs (coalesce axes) ∧ runs.flatten = axes := by
  obtain ⟨runs, hruns, hflatten⟩ := (standFor_singletons axes).loop axes.length
  refine ⟨runs, hruns, hflatten.trans ?_⟩
  rw [← List.flatMap_def, List.flatMap_singleton']

/-- A pass that merges leaves one axis fewer. -/
theorem length_coalesceStep (h : coalesceStep merged = some merged') :
    merged'.length + 1 = merged.length := by
  induction merged generalizing merged' with
  | nil => cases h
  | cons outer rest ih =>
      cases rest with
      | nil => cases h
      | cons inner rest =>
          unfold coalesceStep at h
          split at h
          · cases h
            simp
          · obtain ⟨tail, htail, rfl⟩ := Option.map_eq_some_iff.mp h
            simpa using ih htail

/-- The loop runs until no pass merges. -/
theorem coalesceStep_coalesceLoop {fuel : Nat} (h : merged.length ≤ fuel) :
    coalesceStep (coalesceLoop fuel merged) = none := by
  induction fuel generalizing merged with
  | zero =>
      obtain rfl := List.length_eq_zero_iff.mp (Nat.le_zero.mp h)
      rfl
  | succ fuel ih =>
      unfold coalesceLoop
      split
      · rename_i merged' hstep
        have hlength := length_coalesceStep hstep
        exact ih (by omega)
      · assumption

theorem not_mergeable_of_step (h : coalesceStep merged = none) {k : Nat}
    {outer inner : ConcreteAxis × Nat} (houter : merged[k]? = some outer)
    (hinner : merged[k + 1]? = some inner) : ¬ Mergeable outer.1 inner.1 := by
  induction merged generalizing k with
  | nil => cases houter
  | cons first rest ih =>
      cases rest with
      | nil => cases hinner
      | cons second rest =>
          unfold coalesceStep at h
          split at h
          · cases h
          · rename_i hnone
            rw [Option.map_eq_none_iff] at h
            cases k with
            | zero =>
                cases houter
                cases hinner
                exact mergeAxes_eq_none.mp hnone
            | succ k => exact ih h houter hinner

/-- No two neighbours of the result can still be merged. -/
theorem not_mergeable_coalesce {k : Nat} {outer inner : ConcreteAxis × Nat}
    (houter : (coalesce axes)[k]? = some outer) (hinner : (coalesce axes)[k + 1]? = some inner) :
    ¬ Mergeable outer.1 inner.1 := by
  have hlength : (axes.map fun axis => (axis, 1)).length ≤ axes.length := by simp
  exact not_mergeable_of_step (coalesceStep_coalesceLoop hlength) houter hinner

/-- The merged axes visit what the original ones do. -/
theorem StandFor.visits_eq (h : StandFor runs merged) (hsound : ∀ a ∈ runs.flatten, a.Sound)
    (src dst : Int) : visits (runs.flatten.map ConcreteAxis.walk) src dst =
      visits (merged.map fun entry => entry.1.walk) src dst := by
  induction h generalizing src dst with
  | nil => rfl
  | @cons run entry runs merged hrun _ ih =>
      have hhead := fun a ha => hsound a (List.mem_append_left _ ha)
      have htail := fun a ha => hsound a (List.mem_append_right _ ha)
      rw [List.flatten_cons, List.map_append, hrun.1.visits_eq hhead, List.map_cons, visits, visits]
      congr 1
      funext i
      exact ih htail _ _

theorem StandFor.cells_eq (h : StandFor runs merged) (hsound : ∀ a ∈ runs.flatten, a.Sound) :
    (merged.map fun entry => entry.1.cells).prod =
      (runs.flatten.map ConcreteAxis.cells).prod := by
  induction h with
  | nil => rfl
  | cons hrun _ ih =>
      have hhead := fun a ha => hsound a (List.mem_append_left _ ha)
      have htail := fun a ha => hsound a (List.mem_append_right _ ha)
      rw [List.flatten_cons, List.map_append, List.prod_append, List.map_cons, List.prod_cons,
        ih htail, hrun.1.cells_eq hhead]

theorem StandFor.sound (h : StandFor runs merged) (hsound : ∀ a ∈ runs.flatten, a.Sound) :
    ∀ entry ∈ merged, entry.1.Sound := by
  induction h with
  | nil => simp
  | cons hrun _ ih =>
      rw [List.forall_mem_cons]
      exact ⟨hrun.1.sound fun a ha => hsound a (List.mem_append_left _ ha),
        ih fun a ha => hsound a (List.mem_append_right _ ha)⟩

end Loop

end SymReloc
