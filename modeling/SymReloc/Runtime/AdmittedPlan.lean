import SymReloc.Runtime.Gather

/-!
# Admitted plans

What the transfer validator establishes of a bound plan, and what it means for the
executors: the padded index space numbers the destination cells one to one, a
gather moves exactly the bytes of the valid cells of its rows, and its address
arithmetic stays in range when the last source read does.
-/

namespace SymReloc

open Outcome

def BoundPlan.targetAxes (bound : BoundPlan) : List Strides.Axis :=
  bound.walkAxes.map WalkAxis.target

/-- The number of destination cells. -/
def BoundPlan.cells (bound : BoundPlan) : Int := Strides.cells bound.targetAxes

/-- The largest source offset the plan reads. -/
def BoundPlan.lastRead (bound : BoundPlan) : Int :=
  srcOffset bound.walkAxes (lastValid bound.walkAxes)

/-- The largest source offset at which a copy of the whole plan starts. -/
def BoundPlan.lastCopy (bound : BoundPlan) : Int := lastStart bound.walkAxes 0

structure BoundPlan.Admitted (bound : BoundPlan) : Prop where
  rank : bound.extents ≠ []
  srcRank : bound.srcStrides.length = bound.extents.length
  dstRank : bound.dstStrides.length = bound.extents.length
  size_pos : 0 < bound.elementSize
  size_lt : bound.elementSize < 2 ^ 32
  padded : Padded bound.walkAxes
  reads : ∀ axis ∈ bound.walkAxes, 0 ≤ axis.srcStride
  writes : ∀ axis ∈ bound.walkAxes, 0 ≤ axis.dstStride
  nested : ∃ order : List Strides.Axis, order.Perm bound.targetAxes ∧ Strides.Nested 0 order
  dense : bound.cells = Strides.reach bound.targetAxes + 1
  total : bound.totalBytes = bound.cells * bound.elementSize
  fits : FitsI64 bound.totalBytes
  regions : ∀ region ∈ bound.padRegions, region.axis < bound.extents.length
  distinct : (bound.padRegions.map PadRegion.axis).Nodup
  pattern : ∀ region ∈ bound.padRegions, bound.elementSize ≤ 8
  widened : ∀ ε : Type, (padExtents bound.extents bound.padRegions : Outcome ε _) =
    .ok (bound.walkAxes.map WalkAxis.padded)

/-! ### The axes as vectors -/

theorem map_attachRegions {β : Type} {f : WalkAxis → β}
    (hf : ∀ (region : PadRegion) axis, f (region.attach axis) = f axis) (axes : List WalkAxis)
    (regions : List PadRegion) : (attachRegions axes regions).map f = axes.map f := by
  induction regions generalizing axes with
  | nil => rfl
  | cons region rest ih =>
      refine (ih _).trans (List.ext_getElem? fun k => ?_)
      rw [List.getElem?_map, List.getElem?_map, List.getElem?_modify]
      cases axes[k]? with
      | none => rfl
      | some axis =>
          by_cases hk : region.axis = k
          · simp [hk, hf]
          · simp [hk]

namespace BoundPlan

variable {bound : BoundPlan}

theorem map_bareAxes (hsrc : bound.srcStrides.length = bound.extents.length)
    (hdst : bound.dstStrides.length = bound.extents.length) :
    bound.bareAxes.map WalkAxis.extent = bound.extents ∧
      bound.bareAxes.map WalkAxis.srcStride = bound.srcStrides ∧
      bound.bareAxes.map WalkAxis.dstStride = bound.dstStrides := by
  have hzip : (bound.srcStrides.zip bound.dstStrides).length = bound.extents.length := by
    rw [List.length_zip, hsrc, hdst, min_self]
  have hmap : ∀ f : WalkAxis → Int, bound.bareAxes.map f =
      (bound.extents.zip (bound.srcStrides.zip bound.dstStrides)).map fun entry =>
        f { extent := entry.1, srcStride := entry.2.1, dstStride := entry.2.2, lo := 0, hi := 0 } :=
    fun f => List.map_map
  refine ⟨?_, ?_, ?_⟩
  · rw [hmap]
    exact List.map_fst_zip (by omega)
  · rw [hmap, ← Function.comp_def (fun entry : Int × Int => entry.1) Prod.snd, ← List.map_map,
      List.map_snd_zip (by omega)]
    exact List.map_fst_zip (by omega)
  · rw [hmap, ← Function.comp_def (fun entry : Int × Int => entry.2) Prod.snd, ← List.map_map,
      List.map_snd_zip (by omega)]
    exact List.map_snd_zip (by omega)

theorem map_walkAxes (hsrc : bound.srcStrides.length = bound.extents.length)
    (hdst : bound.dstStrides.length = bound.extents.length) :
    bound.walkAxes.map WalkAxis.extent = bound.extents ∧
      bound.walkAxes.map WalkAxis.srcStride = bound.srcStrides ∧
      bound.walkAxes.map WalkAxis.dstStride = bound.dstStrides := by
  obtain ⟨hextent, hs, hd⟩ := map_bareAxes hsrc hdst
  unfold walkAxes
  exact ⟨(map_attachRegions (fun _ _ => rfl) _ _).trans hextent,
    (map_attachRegions (fun _ _ => rfl) _ _).trans hs,
    (map_attachRegions (fun _ _ => rfl) _ _).trans hd⟩

namespace Admitted

theorem exists_cons (h : bound.Admitted) : ∃ axis axes, bound.walkAxes = axis :: axes := by
  have hmap := (map_walkAxes h.srcRank h.dstRank).1
  cases haxes : bound.walkAxes with
  | nil =>
      rw [haxes] at hmap
      exact absurd hmap.symm h.rank
  | cons axis axes => exact ⟨axis, axes, rfl⟩

/-- The extent of the outermost axis is the first one of the plan. -/
theorem fetch_outer {ε : Type} (h : bound.Admitted) {axis : WalkAxis} {axes : List WalkAxis}
    (haxes : bound.walkAxes = axis :: axes) :
    (fetch bound.extents 0 : Outcome ε Int) = .ok axis.extent := by
  have hmap := (map_walkAxes h.srcRank h.dstRank).1
  rw [haxes, List.map_cons] at hmap
  rw [fetch_eq_ok, ← hmap]
  rfl

theorem forward (h : bound.Admitted) : Strides.Forward bound.targetAxes := by
  intro target hmem
  obtain ⟨axis, haxis, rfl⟩ := List.mem_map.mp hmem
  obtain ⟨hextent, hlo, hhi⟩ := h.padded axis haxis
  refine ⟨?_, h.writes axis haxis⟩
  simp only [WalkAxis.target, WalkAxis.padded]
  omega

theorem cells_pos (h : bound.Admitted) : 1 ≤ bound.cells := h.forward.cells_pos

/-- The padded index space numbers the destination cells. -/
theorem bijOn_offset (h : bound.Admitted) :
    Set.BijOn (Strides.offset bound.targetAxes) {coords | Strides.InBox bound.targetAxes coords}
      (Set.Ico 0 bound.cells) := by
  obtain ⟨order, hperm, hnested⟩ := h.nested
  exact Strides.bijOn_offset hperm hnested h.forward h.dense

theorem cells_inBytes (h : bound.Admitted) : InBytes bound.elementSize bound.cells := by
  have hpos := h.cells_pos
  refine ⟨by omega, ?_⟩
  rw [← h.total]
  exact h.fits.2

theorem walkable (h : bound.Admitted) : ∀ axis ∈ bound.walkAxes, axis.Walkable := by
  intro axis hmem
  obtain ⟨hextent, hlo, hhi⟩ := h.padded axis hmem
  refine ⟨hextent, hlo, h.reads axis hmem, h.writes axis hmem, ?_⟩
  have hle : axis.padded ≤ bound.cells :=
    h.forward.extent_le_cells (List.mem_map_of_mem (f := WalkAxis.target) hmem)
  have hcells := (h.cells_inBytes.fits h.size_pos).2
  unfold WalkAxis.padded at hle
  unfold FitsI64
  omega

/-! ### The offsets of an index -/

theorem dstOffset_mem (h : bound.Admitted) {index : List Int}
    (hvalid : Valid bound.walkAxes index) :
    0 ≤ dstOffset bound.walkAxes index ∧ dstOffset bound.walkAxes index < bound.cells := by
  rw [dstOffset_eq]
  exact h.bijOn_offset.mapsTo (hvalid.inBox_target h.padded)

theorem dstOffset_injective (h : bound.Admitted) {index index' : List Int}
    (hvalid : Valid bound.walkAxes index) (hvalid' : Valid bound.walkAxes index')
    (heq : dstOffset bound.walkAxes index = dstOffset bound.walkAxes index') : index = index' := by
  rw [dstOffset_eq, dstOffset_eq] at heq
  have hshift := h.bijOn_offset.injOn (hvalid.inBox_target h.padded)
    (hvalid'.inBox_target h.padded) heq
  rw [← hvalid.unshift_shift, hshift, hvalid'.unshift_shift]

theorem valid_last (h : bound.Admitted) : Valid bound.walkAxes (lastValid bound.walkAxes) := by
  have hpadded := h.padded
  generalize bound.walkAxes = axes at hpadded
  induction axes with
  | nil => exact .nil
  | cons axis axes ih =>
      rw [padded_cons] at hpadded
      exact .cons ⟨sub_nonneg.mpr hpadded.1.1, sub_one_lt axis.extent⟩ (ih hpadded.2)

theorem srcOffset_mem (h : bound.Admitted) {index : List Int}
    (hvalid : Valid bound.walkAxes index) :
    0 ≤ srcOffset bound.walkAxes index ∧ srcOffset bound.walkAxes index ≤ bound.lastRead := by
  have hforward : Strides.Forward (bound.walkAxes.map WalkAxis.source) := by
    intro source hmem
    obtain ⟨axis, haxis, rfl⟩ := List.mem_map.mp hmem
    exact ⟨(h.padded axis haxis).1, h.reads axis haxis⟩
  have hlast : bound.lastRead = Strides.reach (bound.walkAxes.map WalkAxis.source) := by
    rw [lastRead, srcOffset_eq, ← Strides.offset_lastIndex, Strides.lastIndex, List.map_map]
    rfl
  rw [srcOffset_eq, hlast]
  exact ⟨Strides.offset_nonneg hforward hvalid.inBox_source,
    Strides.offset_le_reach hforward hvalid.inBox_source⟩

/-! ### The bytes a gather moves -/

variable {iBegin iEnd d s s' : Int}

theorem gathers_bounds (h : bound.Admitted)
    (hmoves : Gathers bound.elementSize bound.walkAxes iBegin iEnd 0 0 d s) :
    (0 ≤ d ∧ d < bound.totalBytes) ∧ (0 ≤ s ∧ s < (bound.lastRead + 1) * bound.elementSize) := by
  obtain ⟨index, j, hvalid, -, -, hj, hjlt, rfl, rfl⟩ := hmoves
  have hwithin : ∀ x m : Int, 0 ≤ x → x < m →
      0 ≤ x * bound.elementSize + j ∧ x * bound.elementSize + j < m * bound.elementSize := by
    intro x m hx hlt
    have hlo : 0 ≤ x * bound.elementSize := mul_nonneg hx (by omega)
    have hstep := mul_le_mul_of_nonneg_right (Int.add_one_le_of_lt hlt)
      (Int.natCast_nonneg bound.elementSize)
    rw [add_mul, one_mul] at hstep
    omega
  obtain ⟨hd0, hd⟩ := h.dstOffset_mem hvalid
  obtain ⟨hs0, hs⟩ := h.srcOffset_mem hvalid
  rw [zero_add, zero_add, h.total]
  exact ⟨hwithin _ _ hd0 hd, hwithin _ _ hs0 (by omega)⟩

theorem functional_gathers (h : bound.Admitted) :
    Functional (Gathers bound.elementSize bound.walkAxes iBegin iEnd 0 0) := by
  rintro d s s' ⟨index, j, hvalid, -, -, hj, hjlt, rfl, rfl⟩
    ⟨index', j', hvalid', -, -, hj', hjlt', hd, rfl⟩
  obtain ⟨hcell, rfl⟩ := element_inj ⟨hj, hjlt⟩ ⟨hj', hjlt'⟩ hd
  obtain rfl := h.dstOffset_injective hvalid hvalid' (by simpa using hcell)
  rfl

/-- Every byte of the destination belongs to one coordinate tuple. -/
theorem exists_coords (h : bound.Admitted) (hd : 0 ≤ d ∧ d < bound.totalBytes) :
    ∃ (coords : List Int) (j : Int), Strides.InBox bound.targetAxes coords ∧ 0 ≤ j ∧
      j < bound.elementSize ∧
      d = Strides.offset bound.targetAxes coords * bound.elementSize + j := by
  have hes : (0 : Int) < bound.elementSize := by exact_mod_cast h.size_pos
  have hcell : d / bound.elementSize ∈ Set.Ico 0 bound.cells := by
    refine ⟨Int.ediv_nonneg hd.1 hes.le, Int.ediv_lt_of_lt_mul hes ?_⟩
    rw [← h.total]
    exact hd.2
  obtain ⟨coords, hbox, hoffset⟩ := h.bijOn_offset.surjOn hcell
  refine ⟨coords, d % bound.elementSize, hbox, Int.emod_nonneg d hes.ne',
    Int.emod_lt_of_pos d hes, ?_⟩
  rw [hoffset]
  exact (Int.ediv_mul_add_emod d _).symm

/-- Without pads every byte of the destination is gathered. -/
theorem exists_gathers (h : bound.Admitted) (hbare : bound.padRegions = []) {axis : WalkAxis}
    {axes : List WalkAxis} (haxes : bound.walkAxes = axis :: axes)
    (hd : 0 ≤ d ∧ d < bound.totalBytes) :
    ∃ s, Gathers bound.elementSize bound.walkAxes 0 axis.extent 0 0 d s := by
  obtain ⟨coords, j, hbox, hj, hjlt, rfl⟩ := h.exists_coords hd
  have hinterior : Interior bound.walkAxes coords := by
    have hzero : ∀ a ∈ bound.walkAxes, a.lo = 0 ∧ a.hi = 0 := by
      rw [walkAxes, hbare]
      intro a hmem
      obtain ⟨entry, -, rfl⟩ := List.mem_map.mp hmem
      exact ⟨rfl, rfl⟩
    exact interior_of_bare hzero hbox
  have hvalid := hinterior.valid_unshift
  have hhead := (haxes ▸ hvalid : Valid (axis :: axes) (unshift bound.walkAxes coords)).head
  refine ⟨_, unshift bound.walkAxes coords, j, hvalid, hhead.1, hhead.2, hj, hjlt, ?_, rfl⟩
  rw [dstOffset_eq, hinterior.shift_unshift, zero_add]
  rfl

/-! ### Running a gather -/

variable {ε : Type} {axis : WalkAxis} {axes : List WalkAxis} {copies : List ByteCopy}

theorem moves_gatherChunk (h : bound.Admitted) (haxes : bound.walkAxes = axis :: axes)
    (hbegin : 0 ≤ iBegin) (hle : iBegin ≤ iEnd) (hend : iEnd ≤ axis.extent)
    (hrun : (gatherChunk bound iBegin iEnd : Outcome ε _) = .ok copies) :
    Moves copies d s ↔ Gathers bound.elementSize bound.walkAxes iBegin iEnd 0 0 d s :=
  SymReloc.moves_gatherChunk h.size_pos (fun a ha => (h.padded a ha).1) haxes hbegin hle hend hrun

theorem cells_transposeAxes {bound : BoundPlan} {rows columns : Int}
    (htaxes : bound.walkAxes = transposeAxes rows columns) : bound.cells = rows * columns := by
  rw [cells, targetAxes, htaxes]
  simp [transposeAxes, Strides.cells, WalkAxis.target, WalkAxis.padded]

theorem exists_gatherChunk (h : bound.Admitted) (haxes : bound.walkAxes = axis :: axes)
    (hbegin : 0 ≤ iBegin) (hlt : iBegin < iEnd) (hend : iEnd ≤ axis.extent)
    (hlast : InBytes bound.elementSize bound.lastCopy) :
    ∃ copies, (gatherChunk bound iBegin iEnd : Outcome ε _) = .ok copies := by
  have hcells := h.cells_inBytes
  unfold gatherChunk
  cases htranspose : bound.transposed32 with
  | none =>
      have hwalkable := h.walkable
      have hwrite := h.dstOffset_mem h.valid_last
      rw [lastCopy] at hlast
      rw [haxes] at hwalkable hlast hwrite ⊢
      refine exists_walk ⟨h.size_pos, h.size_lt⟩ hwalkable hbegin hlt hend (le_refl 0) (le_refl 0)
        ?_ (hcells.mono (by omega) (by omega))
      rw [zero_add]
      cases axes with
      | cons next rest => exact hlast
      | nil =>
          -- a single contiguous run starts inside the destination
          rw [lastStart] at hlast ⊢
          split
          · have hle : axis.padded ≤ bound.cells :=
              h.forward.extent_le_cells (List.mem_map_of_mem (f := WalkAxis.target)
                (by rw [haxes]; simp))
            have hpad := h.padded axis (by rw [haxes]; simp)
            unfold WalkAxis.padded at hle
            exact hcells.mono hbegin (by omega)
          · rename_i hone
            rwa [if_neg hone] at hlast
  | some shape =>
      obtain ⟨rows, columns⟩ := shape
      obtain ⟨hes, -, hrows, hcolumns, htaxes⟩ := transposed32_eq_some htranspose
      have hhead : axis.extent = rows := by
        rw [htaxes] at haxes
        injection haxes with haxis
        exact congrArg WalkAxis.extent haxis.symm
      refine exists_gatherTranspose32 hrows hcolumns hbegin (hhead ▸ hend) ?_
      have hbytes := hcells.2
      rwa [cells_transposeAxes htaxes, hes] at hbytes

/-- A gather up to the last row computes the byte offset of the last copy. -/
theorem lastCopy_of_gatherChunk (h : bound.Admitted) (haxes : bound.walkAxes = axis :: axes)
    (hbegin : 0 ≤ iBegin) (hlt : iBegin < axis.extent)
    (hrun : (gatherChunk bound iBegin axis.extent : Outcome ε _) = .ok copies) :
    InBytes bound.elementSize bound.lastCopy := by
  have hwalkable := h.walkable
  have hpos : 0 ≤ bound.lastCopy := lastStart_nonneg hwalkable (le_refl 0)
  unfold gatherChunk at hrun
  cases htranspose : bound.transposed32 with
  | none =>
      simp only [htranspose] at hrun
      rw [haxes] at hwalkable hrun
      have hfits := fits_lastStart_of_walk hwalkable hlt hrun
      rw [zero_add] at hfits
      have hle : bound.lastCopy ≤ lastStart (axis :: axes) iBegin := by
        rw [lastCopy, haxes]
        cases axes with
        | cons next rest => exact le_refl _
        | nil =>
            rw [lastStart, lastStart]
            split
            · exact hbegin
            · exact le_refl _
      have hbytes := mul_le_mul_of_nonneg_right hle (Int.natCast_nonneg bound.elementSize)
      exact ⟨hpos, lt_of_le_of_lt hbytes hfits.2⟩
  | some shape =>
      obtain ⟨rows, columns⟩ := shape
      obtain ⟨-, -, hrows, hcolumns, htaxes⟩ := transposed32_eq_some htranspose
      refine h.cells_inBytes.mono hpos ?_
      rw [cells_transposeAxes htaxes, lastCopy, htaxes, transposeAxes, lastStart, lastStart]
      have hmul : rows ≤ rows * columns := le_mul_of_one_le_right (by omega) hcolumns
      split
      · simp only [mul_one]
        omega
      · have hsum : (rows - 1) * 1 + (columns - 1) * rows = rows * columns - 1 := by ring
        simp only
        omega

end Admitted

end BoundPlan

end SymReloc
