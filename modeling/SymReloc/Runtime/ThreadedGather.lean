import SymReloc.Runtime.HostGather

/-!
# The threads of the host gather

However the rows of a bound plan are divided and whatever the threads' order, the destination
is the one that `executeH2D` leaves.  Where rows are divided at all no two of them share a byte,
so the ranges write apart, and one after the other they write what the walk over all rows does.
-/

namespace SymReloc.HostGather

open Outcome Writes

variable {ε : Type} {bound : BoundPlan} {axis : WalkAxis} {axes : List WalkAxis}
  {source memory : Memory UInt8} {d s : Int}

/-! ### Rows apart -/

/-- The offset of the first valid cell. -/
def firstOffset (axes : List WalkAxis) : Int := dstOffset axes (axes.map fun _ => 0)

/-- The span of the valid cells. -/
def validSpan (axes : List WalkAxis) : Int :=
  Strides.reach (axes.map fun axis => ⟨axis.extent, axis.dstStride⟩)

theorem dstOffset_bounds (hstrides : ∀ axis ∈ axes, 0 ≤ axis.dstStride) {index : List Int}
    (hvalid : Valid axes index) : firstOffset axes ≤ dstOffset axes index ∧
      dstOffset axes index ≤ firstOffset axes + validSpan axes := by
  induction hvalid with
  | nil => exact ⟨le_rfl, le_rfl⟩
  | @cons axis i axes index hi _ ih =>
      rw [List.forall_mem_cons] at hstrides
      obtain ⟨hlow, hhigh⟩ := ih hstrides.2
      have hstep : 0 ≤ i * axis.dstStride := mul_nonneg hi.1 hstrides.1
      have hlast : i * axis.dstStride ≤ (axis.extent - 1) * axis.dstStride :=
        mul_le_mul_of_nonneg_right (by omega) hstrides.1
      have hfirst : firstOffset (axis :: axes) =
          axis.lo * axis.dstStride + firstOffset axes := by
        rw [firstOffset, List.map_cons, dstOffset, zero_add]
        rfl
      have hspan : validSpan (axis :: axes) =
          (axis.extent - 1) * axis.dstStride + validSpan axes := rfl
      rw [hfirst, hspan, dstOffset, add_mul]
      omega

/-- With a stride that exceeds the span of a row, a byte is in one row. -/
theorem exists_row_of_gathers {es : Nat} (hstrides : ∀ a ∈ axes, 0 ≤ a.dstStride)
    (hspan : validSpan axes + 1 ≤ axis.dstStride) {a b a' b' s' : Int}
    (h : Gathers es (axis :: axes) a b 0 0 d s) (h' : Gathers es (axis :: axes) a' b' 0 0 d s') :
    ∃ i, (a ≤ i ∧ i < b) ∧ (a' ≤ i ∧ i < b') := by
  obtain ⟨_, j, hvalid, hlo, hhi, hj, hlt, hd, -⟩ := h
  obtain ⟨_, j', hvalid', hlo', hhi', hj', hlt', hd', -⟩ := h'
  cases hvalid with
  | @cons _ i _ index hi hvalid =>
  cases hvalid' with
  | @cons _ i' _ index' hi' hvalid' =>
      obtain ⟨hlow, hhigh⟩ := dstOffset_bounds hstrides hvalid
      obtain ⟨hlow', hhigh'⟩ := dstOffset_bounds hstrides hvalid'
      obtain ⟨hoffset, -⟩ := element_inj ⟨hj, hlt⟩ ⟨hj', hlt'⟩ (hd.symm.trans hd')
      rw [dstOffset, dstOffset, zero_add, zero_add] at hoffset
      have hstride : 0 ≤ axis.dstStride := by
        have : 0 ≤ validSpan axes := by omega
        omega
      have heq : i = i' := by
        rcases lt_trichotomy i i' with hlt | heq | hgt
        · have hstep : (i + axis.lo + 1) * axis.dstStride ≤ (i' + axis.lo) * axis.dstStride :=
            mul_le_mul_of_nonneg_right (by omega) hstride
          rw [add_mul, one_mul] at hstep
          omega
        · exact heq
        · have hstep : (i' + axis.lo + 1) * axis.dstStride ≤ (i + axis.lo) * axis.dstStride :=
            mul_le_mul_of_nonneg_right (by omega) hstride
          rw [add_mul, one_mul] at hstep
          omega
      subst heq
      exact ⟨i, ⟨hlo, hhi⟩, hlo', hhi'⟩

/-! ### The walk over consecutive rows -/

theorem ofCopy_append (source : Memory UInt8) (dst src : Int) (m n : Nat) :
    ofCopy source { dst, src, bytes := m } ++
        ofCopy source { dst := dst + m, src := src + m, bytes := n } =
      ofCopy source { dst, src, bytes := m + n } := by
  simp only [ofCopy, List.range_add, List.map_append, List.map_map]
  congr 1
  refine List.map_congr_left fun k _ => ?_
  simp only [Function.comp_def, Nat.cast_add, add_assoc]

theorem ofCopies_append (source : Memory UInt8) (copies copies' : List ByteCopy) :
    ofCopies source (copies ++ copies') = ofCopies source copies ++ ofCopies source copies' :=
  List.flatMap_append

/-- The walk over consecutive rows is the walk over all of them. -/
theorem ofCopies_walkTrace_append (es : Nat) (axes : List WalkAxis) {a m b srcOff dstOff : Int}
    (hle : a ≤ m) (hle' : m ≤ b) :
    ofCopies source (walkTrace es axes a m srcOff dstOff) ++
        ofCopies source (walkTrace es axes m b srcOff dstOff) =
      ofCopies source (walkTrace es axes a b srcOff dstOff) := by
  match axes with
  | [] => rfl
  | [axis] =>
      simp only [walkTrace, runTrace]
      by_cases hone : axis.srcStride = 1 ∧ axis.dstStride = 1
      · rw [if_pos hone, if_pos hone, if_pos hone]
        simp only [ofCopies, List.flatMap_cons, List.flatMap_nil, List.append_nil]
        have hbytes : (b - a).toNat * es = (m - a).toNat * es + (b - m).toNat * es := by
          rw [← Nat.add_mul]
          congr 1
          omega
        have hcount : (((m - a).toNat * es : Nat) : Int) = (m - a) * es := by
          rw [Nat.cast_mul, Int.toNat_of_nonneg (by omega)]
        have hdst : (dstOff + m + axis.lo) * es =
            (dstOff + a + axis.lo) * es + (((m - a).toNat * es : Nat) : Int) := by
          rw [hcount]
          ring
        have hsrc : (srcOff + m) * es = (srcOff + a) * es + (((m - a).toNat * es : Nat) : Int) := by
          rw [hcount]
          ring
        rw [hbytes, hdst, hsrc]
        exact ofCopy_append source _ _ _ _
      · rw [if_neg hone, if_neg hone, if_neg hone, ← ofCopies_append, ← List.map_append,
          ← intRange_append m hle hle']
  | axis :: next :: rest =>
      rw [walkTrace, walkTrace, walkTrace, ← ofCopies_append, ← List.flatMap_append,
        ← intRange_append m hle hle']

/-- The writes of the walk over a range of rows. -/
def rowWrites (bound : BoundPlan) (source : Memory UInt8) (range : Int × Int) :
    List (Write UInt8) :=
  ofCopies source (walkTrace bound.elementSize bound.walkAxes range.1 range.2 0 0)

theorem flatMap_rowWrites {parts : List (Int × Int)} {start finish : Int}
    (hparts : Partition start parts finish) :
    parts.flatMap (rowWrites bound source) = rowWrites bound source (start, finish) := by
  induction parts generalizing start with
  | nil =>
      obtain rfl : start = finish := hparts
      have hnone : rowWrites bound source (start, start) ++ rowWrites bound source (start, start) =
          rowWrites bound source (start, start) :=
        ofCopies_walkTrace_append _ _ (le_refl start) (le_refl start)
      exact (List.append_right_eq_self.mp hnone).symm
  | cons part rest ih =>
      obtain ⟨hstart, hlt, hrest⟩ := hparts
      rw [List.flatMap_cons, ih hrest, rowWrites, hstart]
      exact ofCopies_walkTrace_append _ _ (by omega) hrest.le

theorem mem_rowWrites (h : bound.Laid) (haxes : bound.walkAxes = axis :: axes) {range : Int × Int}
    (hlo : 0 ≤ range.1) (hhi : range.2 ≤ axis.extent) {write : Write UInt8} :
    write ∈ rowWrites bound source range ↔
      ∃ s, Gathers bound.elementSize bound.walkAxes range.1 range.2 0 0 write.cell s ∧
        write.value = source s := by
  rw [rowWrites, mem_ofCopies, haxes]
  simp only [moves_walkTrace h.size hlo hhi]

/-- A chunk leaves in every byte what the walk over its rows leaves. -/
theorem last_gatherChunk (h : bound.Laid) (haxes : bound.walkAxes = axis :: axes) {a b : Int}
    (hlo : 0 ≤ a) (hle : a ≤ b) (hhi : b ≤ axis.extent) {copies : List ByteCopy}
    (hrun : (gatherChunk bound a b : Outcome ε _) = .ok copies) (cell : Int) :
    last (ofCopies source copies) cell = last (rowWrites bound source (a, b)) cell := by
  have hextents : ∀ axis ∈ bound.walkAxes, 1 ≤ axis.extent := fun a ha => (h.axes a ha).1
  cases htranspose : bound.transposed32 with
  | none =>
      simp only [gatherChunk, htranspose] at hrun
      rw [rowWrites, ← eq_walkTrace hextents hle hrun]
  | some shape =>
      -- The blocks are in another order, but an element is copied once.
      obtain ⟨rows, columns⟩ := shape
      obtain ⟨hes, -, -, -, htaxes⟩ := BoundPlan.transposed32_eq_some htranspose
      have hmoves : ∀ d s, Moves copies d s ↔
          Gathers bound.elementSize bound.walkAxes a b 0 0 d s := fun d s =>
        moves_gatherChunk h.size hextents haxes hlo hle hhi hrun
      refine last_eq_of_mem (fun write => ?_) (fun x hx y hy hcell => ?_) cell
      · rw [mem_ofCopies, mem_rowWrites h haxes hlo hhi]
        simp only [hmoves]
      · obtain ⟨s, hs, hvalue⟩ := mem_ofCopies.mp hx
        obtain ⟨s', hs', hvalue'⟩ := mem_ofCopies.mp hy
        rw [hmoves, hes, htaxes, gathers_transposeAxes] at hs hs'
        obtain ⟨r, c, j, -, hc, -, -, hj, hlt, hd, rfl⟩ := hs
        obtain ⟨r', c', j', -, hc', -, -, hj', hlt', hd', rfl⟩ := hs'
        obtain ⟨rfl, rfl, rfl⟩ := element_eq hc hc' ⟨hj, hlt⟩ ⟨hj', hlt'⟩
          (hd.symm.trans (hcell.trans hd'))
        cases x
        cases y
        dsimp only at hcell hvalue hvalue'
        rw [hcell, hvalue, hvalue']

/-! ### All ranges -/

/-- The ranges divide the rows, into several only where rows lie apart. -/
structure Divides (axis : WalkAxis) (axes : List WalkAxis) (ranges : List (Int × Int)) : Prop where
  covers : ∃ parts, Partition 0 parts axis.extent ∧ ranges.Perm parts
  apart : ranges = [(0, axis.extent)] ∨ validSpan axes + 1 ≤ axis.dstStride

namespace Divides

variable {ranges : List (Int × Int)} {es : Nat}

theorem bounds (hdivides : Divides axis axes ranges) {range : Int × Int} (hmem : range ∈ ranges) :
    0 ≤ range.1 ∧ range.1 < range.2 ∧ range.2 ≤ axis.extent := by
  obtain ⟨parts, hparts, hperm⟩ := hdivides.covers
  exact hparts.bounds (hperm.mem_iff.mp hmem)

/-- No two ranges gather one byte. -/
theorem pairwise (hdivides : Divides axis axes ranges) (hstrides : ∀ a ∈ axes, 0 ≤ a.dstStride) :
    ranges.Pairwise fun left right => ∀ d s s', Gathers es (axis :: axes) left.1 left.2 0 0 d s →
      ¬ Gathers es (axis :: axes) right.1 right.2 0 0 d s' := by
  rcases hdivides.apart with hwhole | hspan
  · rw [hwhole]
    exact List.pairwise_singleton _ _
  · obtain ⟨parts, hparts, hperm⟩ := hdivides.covers
    have hordered : parts.Pairwise fun left right => left.2 ≤ right.1 ∨ right.2 ≤ left.1 :=
      hparts.pairwise.imp fun hle => .inl hle
    have hsides : ranges.Pairwise fun left right => left.2 ≤ right.1 ∨ right.2 ≤ left.1 :=
      (hperm.pairwise_iff fun hside => hside.symm).mpr hordered
    refine hsides.imp fun hside d s s' hleft hright => ?_
    obtain ⟨i, hi, hi'⟩ := exists_row_of_gathers hstrides hspan hleft hright
    omega

theorem index_eq (hdivides : Divides axis axes ranges) (hstrides : ∀ a ∈ axes, 0 ≤ a.dstStride)
    {k k' : Nat} {range range' : Int × Int} (hk : ranges[k]? = some range)
    (hk' : ranges[k']? = some range') {d s s' : Int}
    (h : Gathers es (axis :: axes) range.1 range.2 0 0 d s)
    (h' : Gathers es (axis :: axes) range'.1 range'.2 0 0 d s') : k = k' := by
  have hpairwise : ranges.Pairwise fun left right => ∀ d s s',
      Gathers es (axis :: axes) left.1 left.2 0 0 d s →
        ¬ Gathers es (axis :: axes) right.1 right.2 0 0 d s' := hdivides.pairwise hstrides
  have hpairs := List.pairwise_iff_getElem.mp hpairwise
  obtain ⟨hlt, rfl⟩ := List.getElem?_eq_some_iff.mp hk
  obtain ⟨hlt', rfl⟩ := List.getElem?_eq_some_iff.mp hk'
  rcases lt_trichotomy k k' with hless | heq | hmore
  · exact absurd h' (hpairs k k' hlt hlt' hless d s s' h)
  · exact heq
  · exact absurd h (hpairs k' k hlt' hlt hmore d s' s h')

theorem moves (hdivides : Divides axis axes ranges) (h : bound.Laid)
    (haxes : bound.walkAxes = axis :: axes) {range : Int × Int} (hmem : range ∈ ranges)
    {copies : List ByteCopy}
    (hrun : (gatherChunk bound range.1 range.2 : Outcome ε _) = .ok copies) :
    Moves copies d s ↔ Gathers bound.elementSize (axis :: axes) range.1 range.2 0 0 d s := by
  obtain ⟨hlo, hlt, hhi⟩ := hdivides.bounds hmem
  rw [moves_gatherChunk h.size (fun a ha => (h.axes a ha).1) haxes hlo hlt.le hhi hrun, haxes]

/-- A byte that is gathered at all is in a range. -/
theorem exists_range (hdivides : Divides axis axes ranges)
    (h : Gathers es (axis :: axes) 0 axis.extent 0 0 d s) :
    ∃ (k : Nat) (range : Int × Int), ranges[k]? = some range ∧
      Gathers es (axis :: axes) range.1 range.2 0 0 d s := by
  obtain ⟨index, j, hvalid, hlo, hhi, hj⟩ := h
  obtain ⟨parts, hparts, hperm⟩ := hdivides.covers
  obtain ⟨range, hmem, hfirst, hlast⟩ := hparts.exists_mem ⟨hlo, hhi⟩
  obtain ⟨k, hk⟩ := List.mem_iff_getElem?.mp (hperm.mem_iff.mpr hmem)
  exact ⟨k, range, hk, index, j, hvalid, hfirst, hlast, hj⟩

end Divides

theorem inner_strides (h : bound.Laid) (haxes : bound.walkAxes = axis :: axes) :
    ∀ a ∈ axes, 0 ≤ a.dstStride := by
  intro a ha
  exact (h.axes a (by rw [haxes]; simp [ha])).2.2

/-- The byte is in a valid cell of the destination. -/
def InValidCell (bound : BoundPlan) (d : Int) : Prop :=
  ∃ (index : List Int) (j : Int), Valid bound.walkAxes index ∧ 0 ≤ j ∧ j < bound.elementSize ∧
    d = dstOffset bound.walkAxes index * bound.elementSize + j

theorem inValidCell_iff (haxes : bound.walkAxes = axis :: axes) :
    InValidCell bound d ↔
      ∃ s, Gathers bound.elementSize (axis :: axes) 0 axis.extent 0 0 d s := by
  rw [InValidCell, haxes]
  constructor
  · intro h
    obtain ⟨index, j, hvalid, hj, hlt, hd⟩ := h
    refine ⟨_, index, j, hvalid, ?_, ?_, hj, hlt, by rw [zero_add]; exact hd, rfl⟩
    · cases hvalid with
      | cons hi _ => exact hi.1
    · cases hvalid with
      | cons hi _ => exact hi.2
  · intro h
    obtain ⟨s, index, j, hvalid, -, -, hj, hlt, hd, -⟩ := h
    rw [zero_add] at hd
    exact ⟨index, j, hvalid, hj, hlt, hd⟩

/-- The run does what `executeH2D` does: it leaves these bytes in whatever order the threads
    write.  The caller fills the destination of a plan with pads, and after the fill the bytes of
    the valid cells, and they alone, are written by one thread each. -/
structure HostRun.Agrees (run : HostRun) (bound : BoundPlan) (source memory result : Memory UInt8) :
    Prop where
  filled : ∀ d, (∃ s, Moves run.fill.2 d s) ↔
    bound.padRegions ≠ [] ∧ 0 ≤ d ∧ d < bound.totalBytes
  leaves : ∃ left, run.Leaves source memory left
  same : ∀ left, run.Leaves source memory left → left = result
  once : ∀ d, InValidCell bound d → ∃! thread, run.GatheredBy thread d
  only : ∀ thread d, run.GatheredBy thread d → InValidCell bound d

/-- Ranges that divide the rows leave what the gather of all rows leaves. -/
theorem run_gatherRanges (h : bound.Laid) (haxes : bound.walkAxes = axis :: axes)
    {ranges : List (Int × Int)} (hdivides : Divides axis axes ranges) {whole : List ByteCopy}
    (hwhole : (gatherChunk bound 0 axis.extent : Outcome ε _) = .ok whole)
    {copiesOf : Int × Int → List ByteCopy} (hcopies : ∀ range ∈ ranges,
      (gatherChunk bound range.1 range.2 : Outcome ε _) = .ok (copiesOf range))
    {history : List (Nat × Write UInt8)}
    (hhistory : Interleaves (ranges.map fun range => ofCopies source (copiesOf range)) history) :
    Writes.run (history.map Prod.snd) memory = runCopies source whole memory := by
  have hextent : 1 ≤ axis.extent := (h.axes axis (by rw [haxes]; simp)).1
  have hpairwise : ranges.Pairwise fun left right => ∀ d s s',
      Gathers bound.elementSize (axis :: axes) left.1 left.2 0 0 d s →
        ¬ Gathers bound.elementSize (axis :: axes) right.1 right.2 0 0 d s' :=
    hdivides.pairwise (inner_strides h haxes)
  have hapart : Apart (ranges.map fun range => ofCopies source (copiesOf range)) := by
    rw [Apart, List.pairwise_map]
    refine hpairwise.imp_of_mem fun hleft hright hnone x hx y hy hcell => ?_
    obtain ⟨s, hs, -⟩ := mem_ofCopies.mp hx
    obtain ⟨s', hs', -⟩ := mem_ofCopies.mp hy
    rw [hdivides.moves h haxes hleft (hcopies _ hleft)] at hs
    rw [hdivides.moves h haxes hright (hcopies _ hright), ← hcell] at hs'
    exact hnone _ _ _ hs hs'
  obtain ⟨parts, hparts, hperm⟩ := hdivides.covers
  rw [run_interleaved hhistory hapart, ← run_ofCopies]
  refine run_congr fun cell => ?_
  calc last (ranges.map fun range => ofCopies source (copiesOf range)).flatten cell
      = last (parts.map fun range => ofCopies source (copiesOf range)).flatten cell :=
        last_flatten_of_perm (hperm.map _) hapart cell
    _ = last (parts.flatMap fun range => ofCopies source (copiesOf range)) cell := by
        rw [List.flatMap_def]
    _ = last (parts.flatMap (rowWrites bound source)) cell :=
        last_flatMap_congr fun range hrange => by
          have hrange' := hperm.mem_iff.mpr hrange
          obtain ⟨hlo, hlt, hhi⟩ := hdivides.bounds hrange'
          exact last_gatherChunk h haxes hlo hlt.le hhi (hcopies range hrange') cell
    _ = last (rowWrites bound source (0, axis.extent)) cell := by rw [flatMap_rowWrites hparts]
    _ = last (ofCopies source whole) cell :=
        (last_gatherChunk h haxes le_rfl (by omega) le_rfl hwhole cell).symm

/-- The copies of a range as a function of the range. -/
theorem exists_copiesOf {ranges : List (Int × Int)} {runs : List (List ByteCopy)}
    (hruns : (mapEach ranges fun range => gatherChunk bound range.1 range.2 : Outcome ε _) =
      .ok runs) :
    ∃ copiesOf : Int × Int → List ByteCopy, (∀ range ∈ ranges,
      (gatherChunk bound range.1 range.2 : Outcome ε _) = .ok (copiesOf range)) ∧
        runs = ranges.map copiesOf := by
  have hget : ∀ range ∈ ranges, ∃ copies,
      (gatherChunk bound range.1 range.2 : Outcome ε _) = .ok copies := fun range hmem =>
    exists_of_mapEach hruns hmem
  choose! copiesOf hcopies using hget
  refine ⟨copiesOf, hcopies, eq_map_of_mapEach hruns fun range hmem copies hrun => ?_⟩
  rw [hcopies range hmem] at hrun
  cases hrun
  rfl

theorem agrees_of_divides (h : bound.Laid) (haxes : bound.walkAxes = axis :: axes)
    {ranges : List (Int × Int)} (hdivides : Divides axis axes ranges) {whole : List ByteCopy}
    (hwhole : (gatherChunk bound 0 axis.extent : Outcome ε _) = .ok whole)
    {fill : Nat × List ByteCopy} (hfill : (fillDst bound : Outcome ε _) = .ok fill)
    {own : Nat} {run : HostRun}
    (hrun : (gatherRanges bound fill ranges own : Outcome ε _) = .ok run) :
    run.Agrees bound source memory
      (runCopies source whole (runCopies (pattern fill.1) fill.2 memory)) := by
  simp only [gatherRanges, bind_ok_iff, pure_eq, Outcome.ok.injEq] at hrun
  obtain ⟨runs, hruns, rfl⟩ := hrun
  obtain ⟨copiesOf, hcopies, rfl⟩ := exists_copiesOf hruns
  have hrange : ∀ (k : Nat) (copies : List ByteCopy), (ranges.map copiesOf)[k]? = some copies →
      ∃ range, ranges[k]? = some range ∧ range ∈ ranges ∧ copiesOf range = copies := by
    intro k copies hk
    rw [List.getElem?_map, Option.map_eq_some_iff] at hk
    obtain ⟨range, hk, heq⟩ := hk
    exact ⟨range, hk, List.mem_of_getElem? hk, heq⟩
  constructor
  · intro d
    simp only [(h.fillDst_eq_ok hfill).2, Fills]
    constructor
    · intro hfilled
      obtain ⟨s, hpads, hd, -⟩ := hfilled
      exact ⟨hpads, hd⟩
    · intro hd
      exact ⟨_, hd.1, hd.2, rfl⟩
  · obtain ⟨history, hhistory⟩ := exists_interleaving
      ((ranges.map copiesOf).map (ofCopies source))
    exact ⟨_, history, hhistory, rfl⟩
  · intro left hleaves
    obtain ⟨history, hhistory, rfl⟩ := hleaves
    rw [List.map_map] at hhistory
    exact run_gatherRanges h haxes hdivides hwhole hcopies hhistory
  · intro d hd
    obtain ⟨s, hs⟩ := (inValidCell_iff haxes).mp hd
    obtain ⟨k, range, hk, hgathers⟩ := hdivides.exists_range hs
    have hmem := List.mem_of_getElem? hk
    refine ⟨_, ⟨k, copiesOf range, by rw [List.getElem?_map, hk]; rfl, rfl, s,
      (hdivides.moves h haxes hmem (hcopies range hmem)).mpr hgathers⟩, ?_⟩
    intro thread hthread
    obtain ⟨k', copies, hk', rfl, s', hs'⟩ := hthread
    obtain ⟨range', hget, hmem', rfl⟩ := hrange k' copies hk'
    rw [hdivides.moves h haxes hmem' (hcopies range' hmem')] at hs'
    rw [hdivides.index_eq (inner_strides h haxes) hk hget hgathers hs']
  · intro thread d hthread
    obtain ⟨k, copies, hk, -, s, hs⟩ := hthread
    obtain ⟨range, -, hmem, rfl⟩ := hrange k copies hk
    rw [hdivides.moves h haxes hmem (hcopies range hmem)] at hs
    obtain ⟨hlo, -, hhi⟩ := hdivides.bounds hmem
    obtain ⟨index, j, hvalid, hfirst, hlast, hj⟩ := hs
    exact (inValidCell_iff haxes).mpr ⟨s, index, j, hvalid, by omega, by omega, hj⟩

/-! ### The ranges of the executors -/

theorem fetch_outer_eq (h : bound.Laid) (haxes : bound.walkAxes = axis :: axes) {outer : Int}
    (hfetch : (fetch bound.extents 0 : Outcome ε _) = .ok outer) : outer = axis.extent := by
  rw [fetch_eq_ok, h.extents, haxes] at hfetch
  cases hfetch
  rfl

theorem fetch_stride_eq (h : bound.Laid) (haxes : bound.walkAxes = axis :: axes) {stride : Int}
    (hfetch : (fetch bound.dstStrides 0 : Outcome ε _) = .ok stride) :
    stride = axis.dstStride := by
  rw [fetch_eq_ok, h.strides, haxes] at hfetch
  cases hfetch
  rfl

theorem innerSpan_eq_validSpan (h : bound.Laid) (haxes : bound.walkAxes = axis :: axes)
    {span : Int} (hspan : (innerSpan bound.extents bound.dstStrides : Outcome ε _) = .ok span) :
    span = validSpan axes := by
  have hreach := innerSpanFrom_eq_ok hspan
  rw [h.extents, h.strides, haxes, List.map_cons, List.map_cons, List.zip_cons_cons,
    List.tail_cons, List.zip_map', List.map_map, zero_add] at hreach
  exact hreach

theorem divides_whole (h : bound.Laid) (haxes : bound.walkAxes = axis :: axes) :
    Divides axis axes [(0, axis.extent)] where
  covers := by
    have hextent : 1 ≤ axis.extent := (h.axes axis (by rw [haxes]; simp)).1
    exact ⟨_, partition_single (by omega), List.Perm.refl _⟩
  apart := .inl rfl

theorem executeH2DAlone_divides (h : bound.Laid) (haxes : bound.walkAxes = axis :: axes)
    {run : HostRun} (hrun : (executeH2DAlone bound : Outcome ε _) = .ok run) :
    ∃ fill ranges own, (fillDst bound : Outcome ε _) = .ok fill ∧ Divides axis axes ranges ∧
      (gatherRanges bound fill ranges own : Outcome ε _) = .ok run := by
  simp only [executeH2DAlone, bind_ok_iff] at hrun
  obtain ⟨fill, hfill, outer, houter, hrun⟩ := hrun
  obtain rfl := fetch_outer_eq h haxes houter
  exact ⟨fill, _, _, hfill, divides_whole h haxes, hrun⟩

theorem executeH2DThreaded_divides (h : bound.Laid) (haxes : bound.walkAxes = axis :: axes)
    {threads hardware : Nat} {run : HostRun}
    (hrun : (executeH2DThreaded bound threads hardware : Outcome ε _) = .ok run) :
    ∃ fill ranges own, (fillDst bound : Outcome ε _) = .ok fill ∧ Divides axis axes ranges ∧
      (gatherRanges bound fill ranges own : Outcome ε _) = .ok run := by
  simp only [executeH2DThreaded, bind_ok_iff] at hrun
  obtain ⟨outer, houter, fill, hfill, span, hspan, stride, hstride, next, hnext, hrun⟩ := hrun
  obtain rfl := fetch_outer_eq h haxes houter
  obtain rfl := fetch_stride_eq h haxes hstride
  obtain rfl := innerSpan_eq_validSpan h haxes hspan
  obtain ⟨-, rfl⟩ := add64_eq_ok.mp hnext
  by_cases halone : axis.dstStride < validSpan axes + 1 ∨
      min (threadCount threads hardware : Int) axis.extent ≤ 1
  · rw [if_pos halone] at hrun
    exact ⟨fill, _, _, hfill, divides_whole h haxes, hrun⟩
  · simp only [if_neg halone, bind_ok_iff, add64_eq_ok, sub64_eq_ok] at hrun
    obtain ⟨_, ⟨-, rfl⟩, _, ⟨-, rfl⟩, ranges, hranges, hrun⟩ := hrun
    rw [not_or, not_lt, not_le] at halone
    obtain ⟨hspan, hmore⟩ := halone
    have hcover := le_mul_ceil axis.extent hmore
    generalize hworkers : min (threadCount threads hardware : Int) axis.extent = workers at *
    generalize hper : (axis.extent + workers - 1) / workers = per at *
    have hpos : 0 < per := by
      by_contra hle
      have : workers * per ≤ 0 := mul_nonpos_of_nonneg_of_nonpos (by omega) (by omega)
      omega
    have hparts := partition_workerRanges hpos (by
      rw [Int.toNat_of_nonneg (by omega), zero_add]
      exact hcover) hranges
    rw [zero_mul, min_eq_left (by omega)] at hparts
    exact ⟨fill, ranges, _, hfill, ⟨⟨ranges, hparts, List.Perm.refl _⟩, .inr hspan⟩, hrun⟩

theorem forwardHostGather_divides (h : bound.Laid) (haxes : bound.walkAxes = axis :: axes)
    {options : GatherOptions} {hardware : Nat} {ranges : List (Int × Int)} {run : HostRun}
    (hdispatched : Dispatched bound options ranges)
    (hrun : (forwardHostGather bound options hardware ranges : Outcome ε _) = .ok run) :
    ∃ fill ranges own, (fillDst bound : Outcome ε _) = .ok fill ∧ Divides axis axes ranges ∧
      (gatherRanges bound fill ranges own : Outcome ε _) = .ok run := by
  unfold forwardHostGather at hrun
  cases hgather : options.gather with
  | none =>
      simp only [hgather] at hrun
      by_cases hone : options.gatherThreads = 1
      · rw [if_pos hone] at hrun
        exact executeH2DAlone_divides h haxes hrun
      · rw [if_neg hone] at hrun
        exact executeH2DThreaded_divides h haxes hrun
  | some threads =>
      simp only [hgather, bind_ok_iff] at hrun
      obtain ⟨fill, hfill, span, hspan, stride, hstride, next, hnext, outer, houter, hrun⟩ := hrun
      obtain rfl := fetch_outer_eq h haxes houter
      obtain rfl := fetch_stride_eq h haxes hstride
      obtain rfl := innerSpan_eq_validSpan h haxes hspan
      obtain ⟨-, rfl⟩ := add64_eq_ok.mp hnext
      by_cases halone : axis.dstStride < validSpan axes + 1 ∨ threads ≤ 1
      · rw [if_pos halone] at hrun
        exact ⟨fill, _, _, hfill, divides_whole h haxes, hrun⟩
      · simp only [if_neg halone, bind_ok_iff] at hrun
        obtain ⟨_, -, hrun⟩ := hrun
        rw [not_or, not_lt] at halone
        have hextent : 1 ≤ axis.extent := (h.axes axis (by rw [haxes]; simp)).1
        have hcall := hdispatched threads hgather axis.extent
          (by rw [h.extents, haxes]; rfl) axis.dstStride (by rw [h.strides, haxes]; rfl)
        exact ⟨fill, ranges, _, hfill, ⟨hcall.partition (by omega), .inr halone.1⟩, hrun⟩

/-! ### Arithmetic in range -/

/-- What the divided gathers compute besides `executeH2D`: the rows and the threads together, and
    the bytes of a row. -/
def Countable (bound : BoundPlan) (threads : Nat) : Prop :=
  ∀ axis ∈ bound.walkAxes.head?, FitsI64 (axis.extent + threads) ∧
    FitsI64 (axis.dstStride * bound.elementSize)

theorem exists_gatherRanges (h : bound.Admitted) (hlaid : bound.Laid)
    (haxes : bound.walkAxes = axis :: axes) {ranges : List (Int × Int)}
    (hdivides : Divides axis axes ranges) {whole : List ByteCopy}
    (hwhole : (gatherChunk bound 0 axis.extent : Outcome ε _) = .ok whole)
    (fill : Nat × List ByteCopy) (own : Nat) :
    ∃ run, (gatherRanges bound fill ranges own : Outcome ε _) = .ok run := by
  have hextent : 1 ≤ axis.extent := (hlaid.axes axis (by rw [haxes]; simp)).1
  have hlast := h.lastCopy_of_gatherChunk haxes le_rfl (by omega) hwhole
  obtain ⟨runs, hruns⟩ : ∃ runs, (mapEach ranges fun range => gatherChunk bound range.1 range.2 :
      Outcome ε _) = .ok runs := by
    refine exists_mapEach fun range hmem => ?_
    obtain ⟨hlo, hlt, hhi⟩ := hdivides.bounds hmem
    exact h.exists_gatherChunk haxes hlo hlt hhi hlast
  exact ⟨_, by rw [gatherRanges, hruns, ok_bind, pure_eq]⟩

theorem exists_fill (h : bound.Admitted) : ∃ fill, (fillDst bound : Outcome ε _) = .ok fill := by
  obtain ⟨fill, hfill, -⟩ := exists_fillDst h
  exact ⟨fill, hfill⟩

theorem valid_bounds (h : bound.Admitted) :
    ∀ a ∈ bound.walkAxes, 1 ≤ a.extent ∧ a.extent ≤ a.padded := by
  intro a ha
  obtain ⟨hextent, hlo, hhi⟩ := h.padded a ha
  unfold WalkAxis.padded
  omega

theorem span_of_admitted (h : bound.Admitted) (haxes : bound.walkAxes = axis :: axes) :
    (innerSpan bound.extents bound.dstStrides : Outcome ε _) = .ok (validSpan axes) := by
  have hspan : (innerSpan (bound.walkAxes.map WalkAxis.extent) bound.dstStrides : Outcome ε _) =
      .ok (validSpan axes) := (innerSpan_eq h haxes (valid_bounds h)).1
  rwa [(BoundPlan.map_walkAxes h.srcRank h.dstRank).1] at hspan

theorem fits_span (h : bound.Admitted) (haxes : bound.walkAxes = axis :: axes) :
    FitsI64 (validSpan axes + 1) :=
  (innerSpan_eq (ε := Unit) h haxes (valid_bounds h)).2

theorem exists_executeH2DThreaded (h : bound.Admitted) (hlaid : bound.Laid)
    (haxes : bound.walkAxes = axis :: axes) {threads hardware : Nat} {whole : List ByteCopy}
    (hwhole : (gatherChunk bound 0 axis.extent : Outcome ε _) = .ok whole)
    (hfits : Countable bound (threadCount threads hardware)) :
    ∃ run, (executeH2DThreaded bound threads hardware : Outcome ε _) = .ok run := by
  obtain ⟨fill, hfill⟩ : ∃ fill, (fillDst bound : Outcome ε _) = .ok fill := exists_fill h
  have hspan : (innerSpan bound.extents bound.dstStrides : Outcome ε _) =
      .ok (validSpan axes) := span_of_admitted h haxes
  have hnext : (add64 (validSpan axes) 1 : Outcome ε _) = .ok (validSpan axes + 1) :=
    exact64_of_fits (fits_span h haxes)
  obtain ⟨hcount, -⟩ := hfits axis (by rw [haxes]; rfl)
  have hextent : 1 ≤ axis.extent := (hlaid.axes axis (by rw [haxes]; simp)).1
  rw [executeH2DThreaded, h.fetch_outer haxes, ok_bind, hfill, ok_bind, hspan, ok_bind,
    fetch_stride h haxes, ok_bind, hnext, ok_bind]
  by_cases halone : axis.dstStride < validSpan axes + 1 ∨
      min (threadCount threads hardware : Int) axis.extent ≤ 1
  · simp only [if_pos halone]
    exact exists_gatherRanges h hlaid haxes (divides_whole hlaid haxes) hwhole fill 0
  · simp only [if_neg halone]
    rw [not_or, not_lt, not_le] at halone
    obtain ⟨hapart, hmore⟩ := halone
    have hcover := le_mul_ceil axis.extent hmore
    have hle : min (threadCount threads hardware : Int) axis.extent ≤
        threadCount threads hardware := min_le_left _ _
    generalize hworkers : min (threadCount threads hardware : Int) axis.extent = workers at *
    have hsum : FitsI64 (axis.extent + workers) := by
      unfold FitsI64 at hcount ⊢
      omega
    have htotal : FitsI64 (axis.extent + workers - 1) := by
      unfold FitsI64 at hsum ⊢
      omega
    rw [add64, exact64_of_fits hsum, ok_bind, sub64, exact64_of_fits htotal, ok_bind]
    have hceil : workers * ((axis.extent + workers - 1) / workers) ≤ axis.extent + workers - 1 :=
      Int.mul_ediv_self_le (by omega)
    generalize hper : (axis.extent + workers - 1) / workers = per at *
    have hpos : 0 < per := by
      by_contra hle
      have : workers * per ≤ 0 := mul_nonpos_of_nonneg_of_nonpos (by omega) (by omega)
      omega
    have hwidth : (0 : Int) + workers.toNat = workers := by omega
    obtain ⟨ranges, hranges⟩ : ∃ ranges, (workerRanges per axis.extent workers.toNat 0 :
        Outcome ε _) = .ok ranges := by
      refine exists_workerRanges hpos le_rfl ?_
      rw [hwidth]
      unfold FitsI64 at htotal ⊢
      omega
    have hparts := partition_workerRanges hpos (by rw [hwidth]; exact hcover) hranges
    rw [zero_mul, min_eq_left (by omega)] at hparts
    rw [hranges, ok_bind]
    exact exists_gatherRanges h hlaid haxes ⟨⟨ranges, hparts, List.Perm.refl _⟩, .inr hapart⟩
      hwhole fill _

theorem exists_forwardHostGather_run (h : bound.Admitted) (hlaid : bound.Laid)
    (haxes : bound.walkAxes = axis :: axes) {options : GatherOptions} {hardware : Nat}
    {ranges : List (Int × Int)} {whole : List ByteCopy}
    (hdispatched : Dispatched bound options ranges)
    (hwhole : (gatherChunk bound 0 axis.extent : Outcome ε _) = .ok whole)
    (hfits : Countable bound (threadCount options.gatherThreads hardware)) :
    ∃ run, (forwardHostGather bound options hardware ranges : Outcome ε _) = .ok run := by
  obtain ⟨fill, hfill⟩ : ∃ fill, (fillDst bound : Outcome ε _) = .ok fill := exists_fill h
  unfold forwardHostGather
  cases hgather : options.gather with
  | none =>
      simp only
      by_cases hone : options.gatherThreads = 1
      · rw [if_pos hone, executeH2DAlone, hfill, ok_bind, h.fetch_outer haxes, ok_bind]
        exact exists_gatherRanges h hlaid haxes (divides_whole hlaid haxes) hwhole fill 0
      · rw [if_neg hone]
        exact exists_executeH2DThreaded h hlaid haxes hwhole hfits
  | some threads =>
      have hspan : (innerSpan bound.extents bound.dstStrides : Outcome ε _) =
          .ok (validSpan axes) := span_of_admitted h haxes
      have hnext : (add64 (validSpan axes) 1 : Outcome ε _) = .ok (validSpan axes + 1) :=
        exact64_of_fits (fits_span h haxes)
      simp only [hfill, ok_bind, hspan, fetch_stride h haxes, hnext, h.fetch_outer haxes]
      by_cases halone : axis.dstStride < validSpan axes + 1 ∨ threads ≤ 1
      · simp only [if_pos halone]
        exact exists_gatherRanges h hlaid haxes (divides_whole hlaid haxes) hwhole fill 0
      · simp only [if_neg halone]
        rw [not_or, not_lt] at halone
        obtain ⟨-, hrow⟩ := hfits axis (by rw [haxes]; rfl)
        have hextent : 1 ≤ axis.extent := (hlaid.axes axis (by rw [haxes]; simp)).1
        have hcall := hdispatched threads hgather axis.extent
          (by rw [hlaid.extents, haxes]; rfl) axis.dstStride (by rw [hlaid.strides, haxes]; rfl)
        rw [mul64, exact64_of_fits hrow, ok_bind]
        exact exists_gatherRanges h hlaid haxes ⟨hcall.partition (by omega), .inr halone.1⟩ hwhole
          fill _

/-! ### Main results -/

/-- A divided gather of a bound plan leaves the bytes of `executeH2D` for every division of the
    rows: for any ranges that have every row once, where several only if rows lie apart, for the
    ranges of any number of threads, and for those of any call of a pool.  A plan that may be
    transferred can be gathered so. -/
theorem hostGather_agrees (h : bound.Laid) {result : Memory UInt8}
    (hserial : (executeH2D bound source memory : Outcome ε _) = .ok result) :
    (∀ axis axes ranges own fill run, bound.walkAxes = axis :: axes → Divides axis axes ranges →
      (fillDst bound : Outcome ε _) = .ok fill →
      (gatherRanges bound fill ranges own : Outcome ε _) = .ok run →
      run.Agrees bound source memory result) ∧
    (∀ threads hardware run,
      (executeH2DThreaded bound threads hardware : Outcome ε _) = .ok run →
      run.Agrees bound source memory result) ∧
    (∀ options hardware ranges run, Dispatched bound options ranges →
      (forwardHostGather bound options hardware ranges : Outcome ε _) = .ok run →
      run.Agrees bound source memory result) ∧
    (bound.Admitted →
      (∀ threads hardware, Countable bound (threadCount threads hardware) →
        ∃ run, (executeH2DThreaded bound threads hardware : Outcome ε _) = .ok run) ∧
      ∀ options hardware ranges, Dispatched bound options ranges →
        Countable bound (threadCount options.gatherThreads hardware) →
        ∃ run, (forwardHostGather bound options hardware ranges : Outcome ε _) = .ok run) := by
  obtain ⟨axis, axes, haxes⟩ := List.exists_cons_of_ne_nil h.rank
  simp only [executeH2D, bind_ok_iff, pure_eq, Outcome.ok.injEq] at hserial
  obtain ⟨fill, hfill, outer, houter, whole, hwhole, rfl⟩ := hserial
  obtain rfl := fetch_outer_eq h haxes houter
  have hagrees : ∀ {run : HostRun}, (∃ fill ranges own,
      (fillDst bound : Outcome ε _) = .ok fill ∧ Divides axis axes ranges ∧
        (gatherRanges bound fill ranges own : Outcome ε _) = .ok run) →
      run.Agrees bound source memory
        (runCopies source whole (runCopies (pattern fill.1) fill.2 memory)) := by
    intro run hrun
    obtain ⟨fill', ranges, own, hfill', hdivides, hrun⟩ := hrun
    obtain rfl : fill = fill' := by
      rw [hfill] at hfill'
      exact Outcome.ok.inj hfill'
    exact agrees_of_divides h haxes hdivides hwhole hfill hrun
  refine ⟨?_, ?_, ?_, fun hadmitted => ⟨?_, ?_⟩⟩
  · intro axis' axes' ranges own fill' run haxes' hdivides hfill' hrun
    rw [haxes] at haxes'
    cases haxes'
    exact hagrees ⟨fill', ranges, own, hfill', hdivides, hrun⟩
  · intro threads hardware run hrun
    exact hagrees (executeH2DThreaded_divides h haxes hrun)
  · intro options hardware ranges run hdispatched hrun
    exact hagrees (forwardHostGather_divides h haxes hdispatched hrun)
  · intro threads hardware hfits
    exact exists_executeH2DThreaded hadmitted h haxes hwhole hfits
  · intro options hardware ranges hdispatched hfits
    exact exists_forwardHostGather_run hadmitted h haxes hdispatched hwhole hfits

/-- Two bytes after one byte of padding. -/
def shiftedBound : BoundPlan where
  extents := [2]
  srcStrides := [1]
  dstStrides := [1]
  perm := [0]
  padRegions := [{ axis := 0, lo := 1, hi := 0, fillBits := 7 }]
  elementSize := 1
  totalBytes := 3
  noCopy := false
  typed := false
  strategy := .multiThreadTiled
  L := 2
  requiredAlignments := []

/-- What two threads do with it. -/
def shiftedRun : HostRun where
  fill := (7, [⟨0, 0, 1⟩, ⟨1, 0, 1⟩, ⟨2, 0, 1⟩])
  runs := [[⟨1, 0, 1⟩], [⟨2, 1, 1⟩]]
  own := 1

theorem hostGather_agrees_shifted : ∃ result,
    (executeH2D shiftedBound (fun _ => 5) (fun _ => 0) : Outcome Unit _) = .ok result ∧
      (executeH2DThreaded shiftedBound 2 0 : Outcome Unit _) = .ok shiftedRun ∧
      shiftedRun.Agrees shiftedBound (fun _ => 5) (fun _ => 0) result := by
  have hlaid : shiftedBound.Laid := by
    refine ⟨by decide, by decide, by decide, rfl, rfl, ?_, ?_, rfl, by decide⟩
    · intro axis axes haxes
      cases haxes
      rfl
    · intro ε padded hpadded
      cases hpadded
      rfl
  obtain ⟨result, hserial⟩ : ∃ result, (executeH2D shiftedBound (fun _ => 5) (fun _ => 0) :
      Outcome Unit _) = .ok result := ⟨_, rfl⟩
  have hrun : (executeH2DThreaded shiftedBound 2 0 : Outcome Unit _) = .ok shiftedRun := by decide
  exact ⟨result, hserial, hrun, (hostGather_agrees hlaid hserial).2.1 2 0 shiftedRun hrun⟩

/-- A byte that a worker gathers into was written by the caller's fill before. -/
theorem executeH2DThreaded_writes_twice :
    (executeH2DThreaded shiftedBound 2 0 : Outcome Unit _) = .ok shiftedRun ∧
      ¬ ∃! thread, shiftedRun.WrittenBy thread 1 := by
  refine ⟨by decide, fun hunique => ?_⟩
  have hcaller : shiftedRun.WrittenBy .caller 1 :=
    .inl ⟨rfl, 0, ⟨1, 0, 1⟩, by decide, 0, by decide, by decide, rfl, rfl⟩
  have hworker : shiftedRun.WrittenBy (.worker 0) 1 :=
    .inr ⟨0, _, rfl, rfl, 0, ⟨1, 0, 1⟩, by decide, 0, by decide, by decide, rfl, rfl⟩
  have heq := hunique.unique hcaller hworker
  cases heq

end SymReloc.HostGather
