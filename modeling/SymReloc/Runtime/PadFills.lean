import Mathlib.Data.List.Induction
import SymReloc.Padding
import SymReloc.Runtime.Pipeline

/-!
# The fill of pad cells

A plan lists one pad after the other, each with a fill of its own; the cells of a
later pad cover those of an earlier one.  The executors have one pattern for the
whole destination, that of the first region, and nothing on the way to them refuses
a plan with several: the test of the fills is an assertion, which a release build
leaves out.
-/

namespace SymReloc

open Outcome

/-! ### The pads of the plan, one after the other -/

def concretePad (symbols : List Int) (pad : PadFill) : Outcome BindError PadRegion := do
  let lo ← evalField pad.lo symbols "pad lo"
  let hi ← evalField pad.hi symbols "pad hi"
  pure { axis := pad.dstAxis, lo, hi, fillBits := pad.fillBits }

def concretePads (symbols : List Int) (pads : List PadFill) :
    Outcome BindError (List PadRegion) := mapEach pads (concretePad symbols)

def PadRegion.toPad (region : PadRegion) : Padding.Pad (Option Nat) where
  axis := region.axis
  lo := region.lo
  hi := region.hi
  value := some region.fillBits

/-- The tensor the pads make of the source; a cell is a fill or none. -/
def paddedTensor (axes : List ConcreteAxis) (regions : List PadRegion) :
    Padding.Tensor (Option Nat) :=
  Padding.Tensor.padAll { extents := axes.map ConcreteAxis.extent, cell := fun _ => none }
    (regions.map PadRegion.toPad)

/-- The cell is a pad of the sequential evaluation, with the given fill. -/
def IsPad (axes : List ConcreteAxis) (regions : List PadRegion) (coords : List Int) (bits : Nat) :
    Prop :=
  Padding.Box (paddedTensor axes regions).extents coords ∧
    (paddedTensor axes regions).cell coords = some bits

/-- Where the destination keeps a cell. -/
def cellOffset (axes : List ConcreteAxis) (coords : List Int) : Int :=
  Strides.offset (axes.map fun axis => axis.walk.target) coords

/-- Every pad is a cell of the destination, and every run leaves its fill there. -/
def PadsFilled (es : Nat) (axes : List ConcreteAxis) (regions : List PadRegion)
    (run : Memory UInt8 → Memory UInt8 → Memory UInt8 → Prop) : Prop :=
  ∀ coords bits, IsPad axes regions coords bits →
    Padding.Box (axes.map ConcreteAxis.cells) coords ∧
    ∀ source memory result, run source memory result → ∀ j : Int, 0 ≤ j → j < es →
      result (cellOffset axes coords * es + j) = pattern bits j

/-! ### The executors -/

def RunsH2D (bound : BoundPlan) (source memory result : Memory UInt8) : Prop :=
  executeH2D bound source memory = (.ok result : Outcome Unit _)

def RunsPipelined (bound : BoundPlan) (source memory result : Memory UInt8) : Prop :=
  ∃ nBuffers chunkSizeOverride staging, staging.Divides ∧
    executeH2DPipelined bound nBuffers chunkSizeOverride staging source memory = .ok result

def RunsHost (bound : BoundPlan) (source memory result : Memory UInt8) : Prop :=
  ∃ buffers threads staging, staging.Divides ∧
    (∀ outer, bound.extents[0]? = some outer → Partition 0 threads outer) ∧
    relocateHost bound buffers threads staging source memory = .ok result

/-! ### The condition -/

/-- The outer one of two entries; the later one on the same axis. -/
def outerPadFill (found : Option PadFill) (pad : PadFill) : Option PadFill :=
  match found with
  | none => some pad
  | some best => if pad.dstAxis ≤ best.dstAxis then some pad else some best

/-- The last entry of the outermost axis that has one. -/
def outermost (pads : List PadFill) : Option PadFill := pads.foldl outerPadFill none

/-- The fills have the same bytes in an element. -/
def SameFill (es : Nat) (bits bits' : Nat) : Prop :=
  ∀ j : Int, 0 ≤ j → j < es → pattern bits j = pattern bits' j

/-- Every pad that has cells has the fill of the outermost entry. -/
def FillsAgree (es : Nat) (pads : List PadFill) (regions : List PadRegion) : Prop :=
  ∀ region ∈ regions, 0 < region.lo + region.hi →
    ∃ first, outermost pads = some first ∧ SameFill es region.fillBits first.fillBits

/-- The pads are cells of the destination, apart from those of the source. -/
def PadsApart (axes : List ConcreteAxis) (regions : List PadRegion) : Prop :=
  ∀ coords bits, IsPad axes regions coords bits →
    Padding.Box (axes.map ConcreteAxis.cells) coords ∧
    cellOffset axes coords < (axes.map ConcreteAxis.cells).prod ∧
    ∀ cell ∈ visits (axes.map ConcreteAxis.walk) 0 0, cell.2 ≠ cellOffset axes coords

/-! ### The pads of an accepted plan -/

section Pads

variable {plan : RelocationPlan} {symbols : List Int} {axes axes' : List ConcreteAxis}

theorem concretePads_of_attachPads {pads : List PadFill} (hlength : axes.length = plan.axes.length)
    (h : attachPads plan symbols pads axes = .ok axes') :
    (∀ pad ∈ pads, pad.dstAxis < plan.axes.length) ∧
    ∃ regions, concretePads symbols pads = .ok regions ∧
      ∀ region ∈ regions, region.axis < plan.axes.length ∧ 0 ≤ region.lo ∧ 0 ≤ region.hi := by
  induction pads generalizing axes with
  | nil => exact ⟨by simp, [], rfl, by simp⟩
  | cons pad rest ih =>
      rw [attachPads, bind_ok_iff] at h
      obtain ⟨middle, hpad, hrest⟩ := h
      obtain ⟨axis, lo, hi, haxis, hpos, hlo, hhi, -, rfl⟩ := attachPad_eq_ok hpad
      obtain ⟨haxes, regions, hregions, hall⟩ := ih (by rw [List.length_set, hlength]) hrest
      obtain ⟨hlt, -⟩ := List.getElem?_eq_some_iff.mp haxis
      rw [hlength] at hlt
      have hregions' : mapEach rest (concretePad symbols) = .ok regions := hregions
      refine ⟨List.forall_mem_cons.mpr ⟨hlt, haxes⟩, ⟨pad.dstAxis, lo, hi, pad.fillBits⟩ :: regions,
        ?_, List.forall_mem_cons.mpr ⟨⟨hlt, hpos⟩, hall⟩⟩
      rw [concretePads, mapEach, concretePad, hlo, ok_bind, hhi, ok_bind, pure_eq, ok_bind,
        hregions', ok_bind, pure_eq]

theorem concretePads_of_concreteAxes {map : SymbolMap}
    (hsymbols : resolveSymbols plan.symbols map = .ok symbols)
    (h : concreteAxes plan map = .ok axes) :
    axes ≠ [] ∧ (∀ pad ∈ plan.padFill, pad.dstAxis < axes.length) ∧
    ∃ regions, concretePads symbols plan.padFill = .ok regions ∧
      ∀ region ∈ regions, region.axis < axes.length ∧ 0 ≤ region.lo ∧ 0 ≤ region.hi := by
  obtain ⟨_, -, -, hattached⟩ := concreteAxes_attached h
  simp only [concreteAxes, bind_ok_iff, exists_unit, require_eq_ok] at h
  obtain ⟨symbols', hsymbols', -, hne, bare, hbare, hpads⟩ := h
  cases hsymbols.symm.trans hsymbols'
  have hlength := (mapEach_eq_ok.mp hbare).length_eq.symm
  rw [hattached.length]
  refine ⟨fun hnil => hne ?_, concretePads_of_attachPads hlength hpads⟩
  rw [← List.length_eq_zero_iff, ← hattached.length, hnil, List.length_nil]

/-- An axis that a pad names carries one. -/
theorem padOf_eq_none {k : Nat} {found : Option PadFill} {pads : List PadFill} :
    padOf k found pads = none ↔ found = none ∧ ∀ pad ∈ pads, pad.dstAxis ≠ k := by
  induction pads generalizing found with
  | nil => simp [padOf]
  | cons pad rest ih =>
      rw [padOf, ih, List.forall_mem_cons]
      by_cases hk : pad.dstAxis = k <;> simp [hk]

end Pads

/-! ### The cells of the merged axes -/

theorem Padding.Box.append {left right coords : List Int}
    (h : Padding.Box (left ++ right) coords) :
    ∃ first last, coords = first ++ last ∧ Padding.Box left first ∧ Padding.Box right last := by
  induction left generalizing coords with
  | nil => exact ⟨[], coords, rfl, .nil, h⟩
  | cons extent left ih =>
      rcases h with _ | ⟨hp, hrest⟩
      obtain ⟨first, last, rfl, hfirst, hlast⟩ := ih hrest
      exact ⟨_ :: first, last, rfl, .cons hp hfirst, hlast⟩

theorem cellOffset_append {left right : List ConcreteAxis} {first last : List Int}
    (h : first.length = left.length) :
    cellOffset (left ++ right) (first ++ last) = cellOffset left first + cellOffset right last := by
  induction left generalizing first with
  | nil =>
      obtain rfl := List.length_eq_zero_iff.mp h
      exact (zero_add _).symm
  | cons axis left ih =>
      cases first with
      | nil => cases h
      | cons p first =>
          have hih := ih (Nat.succ.inj h)
          unfold cellOffset at hih ⊢
          simp only [List.cons_append, List.map_cons, Strides.offset, hih]
          exact (add_assoc _ _ _).symm

/-- A cell of a run of axes is a cell of the merged axis. -/
theorem Merges.exists_cell {run : List ConcreteAxis} {axis : ConcreteAxis} (h : Merges run axis)
    (hsound : ∀ a ∈ run, a.Sound) {coords : List Int}
    (hbox : Padding.Box (run.map ConcreteAxis.cells) coords) :
    ∃ p, (0 ≤ p ∧ p < axis.cells) ∧ p * axis.dstStride = cellOffset run coords := by
  induction h generalizing coords with
  | single axis =>
      rcases hbox with _ | ⟨hp, ⟨⟩⟩
      exact ⟨_, hp, (add_zero _).symm⟩
  | @merge left right outer inner merged hleft hright hmerge ihl ihr =>
      have hsoundl : ∀ a ∈ left, a.Sound := fun a ha => hsound a (List.mem_append_left _ ha)
      have hsoundr : ∀ a ∈ right, a.Sound := fun a ha => hsound a (List.mem_append_right _ ha)
      rw [List.map_append] at hbox
      obtain ⟨first, last, rfl, hfirst, hlast⟩ := hbox.append
      obtain ⟨p, hp, hpoffset⟩ := ihl hsoundl hfirst
      obtain ⟨q, hq, hqoffset⟩ := ihr hsoundr hlast
      obtain ⟨hmergeable, rfl⟩ := mergeAxes_eq_some.mp hmerge
      have hl := (hleft.sound hsoundl).bare hmergeable.outer_bare
      have hr := (hright.sound hsoundr).bare hmergeable.inner_bare
      simp only [ConcreteAxis.cells, hl, hr, add_zero] at hp hq ⊢
      have hlength : first.length = left.length := by
        rw [← hfirst.length_eq, List.length_map]
      refine ⟨p * inner.extent + q, ⟨?_, ?_⟩, ?_⟩
      · have := mul_nonneg hp.1 (hq.1.trans hq.2.le)
        omega
      · have hstep : (p + 1) * inner.extent ≤ outer.extent * inner.extent :=
          mul_le_mul_of_nonneg_right (by omega) (hq.1.trans hq.2.le)
        linarith
      · rw [cellOffset_append hlength, ← hpoffset, ← hqoffset, hmergeable.dst_eq]
        ring

theorem StandFor.exists_coords {runs : List (List ConcreteAxis)}
    {merged : List (ConcreteAxis × Nat)} (h : StandFor runs merged)
    (hsound : ∀ a ∈ runs.flatten, a.Sound) {coords : List Int}
    (hbox : Padding.Box (runs.flatten.map ConcreteAxis.cells) coords) :
    ∃ coords', Strides.InBox (merged.map fun entry => entry.1.walk.target) coords' ∧
      Strides.offset (merged.map fun entry => entry.1.walk.target) coords' =
        cellOffset runs.flatten coords := by
  induction h generalizing coords with
  | nil =>
      cases hbox
      exact ⟨[], .nil, rfl⟩
  | @cons run entry runs merged hhead _ ih =>
      simp only [List.flatten_cons, List.mem_append, or_imp, forall_and] at hsound
      rw [List.flatten_cons, List.map_append] at hbox
      obtain ⟨first, last, rfl, hfirst, hlast⟩ := hbox.append
      obtain ⟨p, hp, hpoffset⟩ := hhead.1.exists_cell hsound.1 hfirst
      obtain ⟨coords', hcoords', hoffset⟩ := ih hsound.2 hlast
      have hlength : first.length = run.length := by
        rw [← hfirst.length_eq, List.length_map]
      refine ⟨p :: coords', .cons hp hcoords', ?_⟩
      rw [List.flatten_cons, cellOffset_append hlength, ← hpoffset, ← hoffset]
      rfl

/-! ### The outermost entry -/

theorem padOf_append {k : Nat} {found : Option PadFill} {pads : List PadFill} {pad : PadFill} :
    padOf k found (pads ++ [pad]) = if pad.dstAxis = k then some pad else padOf k found pads := by
  induction pads generalizing found with
  | nil => rfl
  | cons first rest ih => exact ih

theorem outermost_append (pads : List PadFill) (pad : PadFill) :
    outermost (pads ++ [pad]) = outerPadFill (outermost pads) pad := by
  rw [outermost, List.foldl_append]
  rfl

theorem outermost_eq_none {pads : List PadFill} (h : outermost pads = none) : pads = [] := by
  induction pads using List.reverseRecOn with
  | nil => rfl
  | append_singleton pads last _ =>
      rw [outermost_append] at h
      unfold outerPadFill at h
      split at h
      · cases h
      · split at h <;> cases h

theorem mem_of_outermost {pads : List PadFill} {first : PadFill}
    (h : outermost pads = some first) : first ∈ pads := by
  induction pads using List.reverseRecOn with
  | nil => cases h
  | append_singleton pads last ih =>
      rw [outermost_append] at h
      unfold outerPadFill at h
      split at h
      · cases h
        simp
      · rename_i best hbest
        split at h
        · cases h
          simp
        · exact List.mem_append_left _ (ih (hbest.trans h))

/-- The outermost entry is the one that counts on its axis, and no entry lies further out. -/
theorem padOf_outermost {pads : List PadFill} {first : PadFill} (h : outermost pads = some first) :
    padOf first.dstAxis none pads = some first ∧ ∀ pad ∈ pads, first.dstAxis ≤ pad.dstAxis := by
  induction pads using List.reverseRecOn generalizing first with
  | nil => cases h
  | append_singleton pads last ih =>
      rw [outermost_append] at h
      rw [padOf_append]
      simp only [List.mem_append, List.mem_singleton]
      cases hbest : outermost pads with
      | none =>
          rw [hbest] at h
          cases h
          obtain rfl := outermost_eq_none hbest
          simp
      | some best =>
          obtain ⟨hpad, hleast⟩ := ih hbest
          rw [hbest, outerPadFill] at h
          by_cases hle : last.dstAxis ≤ best.dstAxis
          · rw [if_pos hle] at h
            cases h
            refine ⟨if_pos rfl, fun pad hmem => ?_⟩
            rcases hmem with hmem | rfl
            · exact hle.trans (hleast pad hmem)
            · exact le_refl _
          · rw [if_neg hle] at h
            cases h
            refine ⟨by rw [if_neg (by omega), hpad], fun pad hmem => ?_⟩
            rcases hmem with hmem | rfl
            · exact hleast pad hmem
            · omega

theorem head_padRegions (axes : List ConcreteAxis) :
    (padRegions axes).head?.map PadRegion.fillBits =
      (axes.find? ConcreteAxis.padded).map ConcreteAxis.fillBits := by
  have hall : ∀ start, (((axes.zipIdx start).filter fun entry => entry.1.padded).map fun entry =>
      ({ axis := entry.2, lo := entry.1.lo, hi := entry.1.hi, fillBits := entry.1.fillBits } :
        PadRegion)).head?.map PadRegion.fillBits =
      (axes.find? ConcreteAxis.padded).map ConcreteAxis.fillBits := by
    induction axes with
    | nil => exact fun _ => rfl
    | cons axis rest ih =>
        intro start
        rw [List.zipIdx_cons, List.filter_cons, List.find?_cons]
        cases hpadded : axis.padded with
        | true => simp
        | false => simpa [hpadded] using ih (start + 1)
  exact hall 0

/-- Merging leaves the first padded axis as it is. -/
theorem StandFor.find?_padded {runs : List (List ConcreteAxis)}
    {merged : List (ConcreteAxis × Nat)} (h : StandFor runs merged) :
    (merged.map Prod.fst).find? ConcreteAxis.padded =
      runs.flatten.find? ConcreteAxis.padded := by
  induction h with
  | nil => rfl
  | @cons run entry runs merged hhead _ ih =>
      rw [List.map_cons, List.flatten_cons, List.find?_cons, List.find?_append, ← ih]
      cases hpadded : entry.1.padded with
      | true => simp [hhead.1.eq_of_padded hpadded, hpadded]
      | false =>
          have hnone : run.find? ConcreteAxis.padded = none := by
            rw [List.find?_eq_none]
            intro axis hmem haxis
            obtain ⟨-, hentry⟩ := hhead.1.eq_singleton hmem haxis
            rw [hentry, haxis] at hpadded
            cases hpadded
          rw [hnone, Option.none_or]

/-- The executors take the fill of the outermost entry. -/
theorem fillBits_of_outermost {plan : RelocationPlan} {symbols : List Int} {override : Strategy}
    {axes : List ConcreteAxis} {bound : BoundPlan}
    (hattached : Attached plan symbols (fun k => padOf k none plan.padFill) axes)
    (h : assembleBound plan override axes = .ok bound) {first : PadFill}
    (hfirst : outermost plan.padFill = some first) (hlt : first.dstAxis < axes.length) :
    bound.padRegions ≠ [] ∧ bound.fillBits = first.fillBits := by
  obtain ⟨runs, hruns, hflatten⟩ := exists_runs axes
  obtain ⟨hpad, hleast⟩ := padOf_outermost hfirst
  obtain ⟨-, -, -, -, -, -, hregions, -⟩ := assembleBound_eq_ok h
  have hcarries := (hattached.each _ _ (List.getElem?_eq_getElem hlt)).2.1
  simp only [hpad] at hcarries
  have hfind : axes.find? ConcreteAxis.padded = some axes[first.dstAxis] := by
    rw [List.find?_eq_some_iff_getElem]
    refine ⟨hcarries.1, first.dstAxis, hlt, rfl, fun k hk => ?_⟩
    have hnone : padOf k none plan.padFill = none :=
      padOf_eq_none.mpr ⟨rfl, fun pad hmem heq => by have := hleast pad hmem; omega⟩
    have hother := (hattached.each k _ (List.getElem?_eq_getElem (hk.trans hlt))).2.1
    simp only [hnone] at hother
    rw [hother.1]
    rfl
  have hhead := head_padRegions ((coalesce axes).map Prod.fst)
  rw [hruns.find?_padded, hflatten, hfind, ← hregions, Option.map_some, hcarries.2.1] at hhead
  constructor
  · intro hnil
    rw [hnil] at hhead
    cases hhead
  · rw [BoundPlan.fillBits, hhead, Option.getD_some]

/-! ### The theorem -/

section Iff

variable {plan : RelocationPlan} {symbols : List Int} {override : Strategy}
  {axes : List ConcreteAxis} {regions : List PadRegion} {bound : BoundPlan}
  {coords : List Int} {bits : Nat}

theorem fits_regions (hregions : ∀ region ∈ regions, region.axis < axes.length ∧
    0 ≤ region.lo ∧ 0 ≤ region.hi) : ∀ entry ∈ regions.map PadRegion.toPad,
    entry.Fits (axes.map ConcreteAxis.extent).length := by
  intro entry hmem
  obtain ⟨region, hregion, rfl⟩ := List.mem_map.mp hmem
  obtain ⟨haxis, hwidths⟩ := hregions region hregion
  exact ⟨by rwa [List.length_map], hwidths⟩

/-- A pad cell is a cell of some pad that has cells. -/
theorem IsPad.exists_region (h : IsPad axes regions coords bits)
    (hregions : ∀ region ∈ regions, region.axis < axes.length ∧ 0 ≤ region.lo ∧ 0 ≤ region.hi) :
    ∃ region ∈ regions, 0 < region.lo + region.hi ∧ region.fillBits = bits := by
  obtain ⟨hbox, hcell⟩ := h
  rcases Padding.cell_padAll_cases (fits_regions hregions) hbox with
    ⟨coords', -, hnone⟩ | ⟨entry, hmem, hwidth, hvalue⟩
  · rw [paddedTensor] at hcell
    rw [hcell] at hnone
    cases hnone
  · obtain ⟨region, hregion, rfl⟩ := List.mem_map.mp hmem
    rw [paddedTensor, hvalue] at hcell
    exact ⟨region, hregion, hwidth, Option.some.inj hcell⟩

/-- Every pad that has cells shows in one of them. -/
theorem exists_isPad (hsound : ∀ axis ∈ axes, axis.Sound)
    (hregions : ∀ region ∈ regions, region.axis < axes.length ∧ 0 ≤ region.lo ∧ 0 ≤ region.hi)
    {region : PadRegion} (hmem : region ∈ regions) (hwidth : 0 < region.lo + region.hi) :
    ∃ coords, IsPad axes regions coords region.fillBits := by
  have hnonempty : Padding.Nonempty (axes.map ConcreteAxis.extent) := by
    intro extent hextent
    obtain ⟨axis, haxis, rfl⟩ := List.mem_map.mp hextent
    exact (hsound axis haxis).extent
  have htensor : Padding.Nonempty (Padding.Tensor.extents
      ⟨axes.map ConcreteAxis.extent, fun _ => (none : Option Nat)⟩) := hnonempty
  exact Padding.exists_cell_of_mem htensor (fits_regions hregions) (List.mem_map_of_mem hmem) hwidth

/-- A byte that every run sets is set by the fill, and by nothing else. -/
theorem moves_of_forall {fills copies : List ByteCopy} {es : Nat} {total d : Int} {c : Prop}
    {value : UInt8} (hfills : ∀ d s, Moves fills d s ↔ c ∧ Fills es total d s)
    (h : ∀ source memory : Memory UInt8,
      runCopies source copies (runCopies (pattern bits) fills memory) d = value) :
    (∀ s, ¬ Moves copies d s) ∧ (c ∧ 0 ≤ d ∧ d < total) ∧ pattern bits (d % es) = value := by
  -- the same byte everywhere, another than the one found
  have hother := h (fun _ => value + 1) (fun _ => value + 1)
  have hne : value + 1 ≠ value := by
    simp
  have hnot : ∀ s, ¬ Moves copies d s := by
    intro s hs
    rw [runCopies_const (fun _ => rfl) hs] at hother
    exact hne hother
  rw [runCopies_of_not_moves hnot] at hother
  by_cases hfill : ∃ s, Moves fills d s
  · obtain ⟨s, hs⟩ := hfill
    rw [runCopies_of_moves (BoundPlan.Laid.functional_fills hfills) hs] at hother
    obtain ⟨hc, hrange, rfl⟩ := (hfills _ _).mp hs
    exact ⟨hnot, ⟨hc, hrange⟩, hother⟩
  · rw [runCopies_of_not_moves fun s hs => hfill ⟨s, hs⟩] at hother
    exact absurd hother hne

/-- What a run that fills its pads says about one pad cell. -/
theorem PadsFilled.pad (hlaid : bound.Laid)
    (hcoalesced : Coalesced plan axes bound)
    (hreturns : ∃ source memory result, RunsH2D bound source memory result)
    (h : PadsFilled bound.elementSize axes regions (RunsH2D bound))
    (hpad : IsPad axes regions coords bits) :
    (cellOffset axes coords < (axes.map ConcreteAxis.cells).prod ∧
      ∀ cell ∈ visits (axes.map ConcreteAxis.walk) 0 0, cell.2 ≠ cellOffset axes coords) ∧
      SameFill bound.elementSize bits bound.fillBits := by
  obtain ⟨source, memory, result, hrun⟩ := hreturns
  obtain ⟨fills, copies, hall, hfills, hcopies⟩ := hlaid.executeH2D_eq_ok hrun
  obtain ⟨-, hbytes⟩ := h coords bits hpad
  have hes : (0 : Int) < bound.elementSize := by exact_mod_cast hlaid.size
  have hbyte : ∀ j : Int, 0 ≤ j → j < bound.elementSize → _ := fun j hj hjlt =>
    moves_of_forall hfills fun source memory =>
      hbytes source memory _ (hall source memory) j hj hjlt
  refine ⟨⟨?_, fun cell hcell heq => ?_⟩, fun j hj hjlt => ?_⟩
  · obtain ⟨-, ⟨-, -, hlt⟩, -⟩ := hbyte 0 (le_refl 0) hes
    rw [hcoalesced.total, add_zero] at hlt
    exact lt_of_mul_lt_mul_right hlt hes.le
  · obtain ⟨hnot, -, -⟩ := hbyte 0 (le_refl 0) hes
    refine hnot (cell.1 * bound.elementSize + 0) ((hcopies _ _).mpr ⟨cell, ?_, 0, le_refl 0, hes,
      by rw [heq], rfl⟩)
    rwa [hcoalesced.visits_eq]
  · obtain ⟨-, -, hvalue⟩ := hbyte j hj hjlt
    rw [add_comm, Int.add_mul_emod_self_right, Int.emod_eq_of_lt hj hjlt] at hvalue
    exact hvalue.symm

/-- A cell apart from the source cells has the pattern of the plan after every run. -/
theorem PadsApart.byte_eq (hsound : ∀ axis ∈ axes, axis.Sound) (hlaid : bound.Laid)
    (hassemble : assembleBound plan override axes = .ok bound)
    (hapart : PadsApart axes regions) (hpad : IsPad axes regions coords bits)
    (hne : bound.padRegions ≠ []) {source memory result : Memory UInt8} {j : Int}
    (hj : 0 ≤ j ∧ j < bound.elementSize)
    (hrun : RunsH2D bound source memory result ∨ RunsPipelined bound source memory result ∨
      RunsHost bound source memory result) :
    result (cellOffset axes coords * bound.elementSize + j) = pattern bound.fillBits j := by
  obtain ⟨hbox, hlt, hfree⟩ := hapart coords bits hpad
  have hcoalesced := coalesced_of_assembleBound hsound hassemble
  have hes : (0 : Int) < bound.elementSize := by exact_mod_cast hlaid.size
  obtain ⟨runs, hruns, rfl⟩ := exists_runs axes
  obtain ⟨coords', hbox', hoffset⟩ := hruns.exists_coords hsound hbox
  have htargets : bound.targetAxes =
      (coalesce runs.flatten).map fun entry => entry.1.walk.target := by
    rw [BoundPlan.targetAxes, walkAxes_of_assembleBound hsound hassemble, List.map_map]
    rfl
  rw [← htargets] at hbox' hoffset
  have hstart : cellOffset runs.flatten coords * bound.elementSize < bound.totalBytes := by
    rw [hcoalesced.total]
    exact mul_lt_mul_of_pos_right hlt hes
  have hbyte := hlaid.byte_lt hstart hj.2
  have hfree' : BoundPlan.Laid.Free bound (cellOffset runs.flatten coords) := by
    intro cell hcell
    rw [hcoalesced.visits_eq] at hcell
    exact hfree cell hcell
  rcases hrun with hrun | ⟨nBuffers, override, staging, hdivides, hrun⟩ |
    ⟨buffers, threads, staging, hdivides, hthreads, hrun⟩
  · exact hlaid.executeH2D_of_free hne hrun (hoffset ▸ Strides.offset_nonneg hlaid.forward hbox')
      hfree' hbyte hj
  · exact hlaid.executeH2DPipelined_of_free hne hdivides hrun hbox' hoffset hfree' hbyte hj
  · exact hlaid.relocateHost_of_free hne hdivides hthreads hrun hbox' hoffset hfree' hbyte hj

end Iff

/-- The pads of an accepted plan are filled, by every executor, exactly when their fills
    agree with the outermost one and their cells lie apart. -/
theorem bind_padsFilled_iff {plan : RelocationPlan} {map : SymbolMap} {override : Strategy}
    {bound : BoundPlan} (hbind : bind plan map override = .ok bound)
    (hreturns : ∃ source memory result, RunsH2D bound source memory result) :
    ∃ symbols axes regions, resolveSymbols plan.symbols map = .ok symbols ∧
      concreteAxes plan map = .ok axes ∧ concretePads symbols plan.padFill = .ok regions ∧
      (PadsFilled bound.elementSize axes regions (RunsH2D bound) ∧
        PadsFilled bound.elementSize axes regions (RunsPipelined bound) ∧
        PadsFilled bound.elementSize axes regions (RunsHost bound) ↔
      FillsAgree (plan.dst.elementType.bitwidth / 8) plan.padFill regions ∧
        PadsApart axes regions) := by
  rw [bind_eq, bind_ok_iff] at hbind
  obtain ⟨axes, haxes, hassemble⟩ := hbind
  obtain ⟨symbols, hsymbols, -, hattached⟩ := concreteAxes_attached haxes
  obtain ⟨hne, hentries, regions, hpads, hregions⟩ := concretePads_of_concreteAxes hsymbols haxes
  have hsound := concreteAxes_sound haxes
  have hlaid := laid_of_assembleBound hsound hne hassemble
  have hcoalesced := coalesced_of_assembleBound hsound hassemble
  have hsize : plan.dst.elementType.bitwidth / 8 = bound.elementSize := by
    have := hcoalesced.size.2
    omega
  rw [hsize]
  -- an entry makes its axis a padded one, so there is an outermost entry
  have hfront : ∀ region ∈ regions, ∃ first, outermost plan.padFill = some first ∧
      bound.padRegions ≠ [] ∧ bound.fillBits = first.fillBits := by
    intro region hregion
    cases hfirst : outermost plan.padFill with
    | none =>
        rw [outermost_eq_none hfirst] at hpads
        cases hpads
        cases hregion
    | some first =>
        have hlt := hentries first (mem_of_outermost hfirst)
        exact ⟨first, rfl, fillBits_of_outermost hattached hassemble hfirst hlt⟩
  refine ⟨symbols, axes, regions, hsymbols, haxes, hpads, ?_⟩
  constructor
  · rintro ⟨hfilled, -, -⟩
    refine ⟨fun region hregion hwidth => ?_, fun coords bits hpad => ?_⟩
    · obtain ⟨first, hfirst, -, hbits⟩ := hfront region hregion
      obtain ⟨coords, hpad⟩ := exists_isPad hsound hregions hregion hwidth
      have hsame := (hfilled.pad hlaid hcoalesced hreturns hpad).2
      exact ⟨first, hfirst, hbits ▸ hsame⟩
    · exact ⟨(hfilled coords bits hpad).1, (hfilled.pad hlaid hcoalesced hreturns hpad).1⟩
  · rintro ⟨hagree, hapart⟩
    have hall : ∀ coords bits, IsPad axes regions coords bits →
        Padding.Box (axes.map ConcreteAxis.cells) coords ∧
        ∀ source memory result, (RunsH2D bound source memory result ∨
          RunsPipelined bound source memory result ∨ RunsHost bound source memory result) →
          ∀ j : Int, 0 ≤ j → j < bound.elementSize →
            result (cellOffset axes coords * bound.elementSize + j) = pattern bits j := by
      intro coords bits hpad
      obtain ⟨region, hregion, hwidth, rfl⟩ := hpad.exists_region hregions
      obtain ⟨first, hfirst, hpadded, hbits⟩ := hfront region hregion
      obtain ⟨first', hfirst', hsame⟩ := hagree region hregion hwidth
      cases hfirst.symm.trans hfirst'
      refine ⟨(hapart coords _ hpad).1, fun source memory result hrun j hj hjlt => ?_⟩
      rw [hapart.byte_eq hsound hlaid hassemble hpad hpadded ⟨hj, hjlt⟩ hrun, hbits,
        hsame j hj hjlt]
    refine ⟨fun coords bits hpad => ?_, fun coords bits hpad => ?_, fun coords bits hpad => ?_⟩
    · exact ⟨(hall coords bits hpad).1, fun source memory result hrun =>
        (hall coords bits hpad).2 source memory result (.inl hrun)⟩
    · exact ⟨(hall coords bits hpad).1, fun source memory result hrun =>
        (hall coords bits hpad).2 source memory result (.inr (.inl hrun))⟩
    · exact ⟨(hall coords bits hpad).1, fun source memory result hrun =>
        (hall coords bits hpad).2 source memory result (.inr (.inr hrun))⟩

/-! ### One cell with a pad behind it on both axes -/

/-- One source cell in a matrix of two by two, padded with `a` below and then with `b` to
    the right. -/
def cornered (a b : Nat) : RelocationPlan where
  symbols := []
  src := denseDesc [1, 1]
  dst := denseDesc [2, 2]
  perm := [0, 1]
  axes := [{ constantAxis 1 1 with dstStride := [.pushConst 2] }, constantAxis 1 1]
  padFill := [⟨0, [.pushConst 0], [.pushConst 1], ⟨.float, 32⟩, a⟩,
    ⟨1, [.pushConst 0], [.pushConst 1], ⟨.float, 32⟩, b⟩]
  divisibility := []
  alignment := []
  contiguity := []
  noCopy := false
  runtimePadCheck := true
  inverse := [[.pushDim 0], [.pushDim 1]]

def corneredAxes (a b : Nat) : List ConcreteAxis :=
  [{ extent := 1, srcStride := 1, dstStride := 2, padded := true, lo := 0, hi := 1, fillBits := a },
   { extent := 1, srcStride := 1, dstStride := 1, padded := true, lo := 0, hi := 1, fillBits := b }]

def corneredRegions (a b : Nat) : List PadRegion := [⟨0, 0, 1, a⟩, ⟨1, 0, 1, b⟩]

def corneredBound (a b : Nat) : BoundPlan where
  extents := [1, 1]
  srcStrides := [1, 1]
  dstStrides := [2, 1]
  perm := [0, 1]
  padRegions := corneredRegions a b
  elementSize := 4
  totalBytes := 16
  noCopy := false
  typed := false
  strategy := .singleThreadSimd
  L := 1
  requiredAlignments := []

def hostBuffers : HostBuffers where
  srcPtr := 64
  srcBytes := 4
  dstPtr := 128
  dstBytes := 16
  gatherThreads := 0
  poolClosed := false

/-- Every chunk in one piece, into a cleared slot. -/
def inlineStaging : Staging where
  parts := fun chunk => [(chunk.validBegin, chunk.validEnd)]
  slot := fun _ _ => 0

theorem divides_inlineStaging : inlineStaging.Divides := fun _ hlt => partition_single hlt

/-- With one fill every executor fills the pads. -/
theorem bind_cornered_same : bind (cornered 7 7) noSymbols .auto = .ok (corneredBound 7 7) ∧
    PadsFilled 4 (corneredAxes 7 7) (corneredRegions 7 7) (RunsH2D (corneredBound 7 7)) ∧
    PadsFilled 4 (corneredAxes 7 7) (corneredRegions 7 7) (RunsPipelined (corneredBound 7 7)) ∧
    PadsFilled 4 (corneredAxes 7 7) (corneredRegions 7 7) (RunsHost (corneredBound 7 7)) := by
  have hbind : bind (cornered 7 7) noSymbols .auto = .ok (corneredBound 7 7) := by decide +kernel
  obtain ⟨symbols, axes, regions, hsymbols, haxes, hregions, hiff⟩ :=
    bind_padsFilled_iff hbind ⟨fun _ => 0, fun _ => 0, _, rfl⟩
  have hsymbols' : resolveSymbols (cornered 7 7).symbols noSymbols = .ok [] := by decide +kernel
  have haxes' : concreteAxes (cornered 7 7) noSymbols = .ok (corneredAxes 7 7) := by
    decide +kernel
  have hregions' : concretePads [] (cornered 7 7).padFill = .ok (corneredRegions 7 7) := by
    decide +kernel
  cases hsymbols.symm.trans hsymbols'
  cases haxes.symm.trans haxes'
  cases hregions.symm.trans hregions'
  refine ⟨hbind, hiff.mpr ⟨fun region hregion _ => ?_, fun coords bits hpad => ?_⟩⟩
  · refine ⟨⟨0, [.pushConst 0], [.pushConst 1], ⟨.float, 32⟩, 7⟩, by decide, fun _ _ _ => ?_⟩
    have hfill : region.fillBits = 7 := by
      revert region
      decide
    rw [hfill]
  · -- the four cells of the matrix, of which the first is the source cell
    obtain ⟨hbox, hcell⟩ := hpad
    rcases hbox with _ | ⟨hp, _ | ⟨hq, ⟨⟩⟩⟩
    rename_i p q
    change 0 ≤ p ∧ p < 2 at hp
    change 0 ≤ q ∧ q < 2 at hq
    have hp' : p = 0 ∨ p = 1 := by omega
    have hq' : q = 0 ∨ q = 1 := by omega
    have hapart : ∀ coords ∈ [[(0 : Int), 1], [1, 0], [1, 1]],
        Padding.Box ((corneredAxes 7 7).map ConcreteAxis.cells) coords ∧
        cellOffset (corneredAxes 7 7) coords < ((corneredAxes 7 7).map ConcreteAxis.cells).prod ∧
        ∀ cell ∈ visits ((corneredAxes 7 7).map ConcreteAxis.walk) 0 0,
          cell.2 ≠ cellOffset (corneredAxes 7 7) coords := by
      unfold Padding.Box
      decide +kernel
    rcases hp' with rfl | rfl <;> rcases hq' with rfl | rfl
    · cases hcell
    all_goals exact hapart _ (by decide)

/-- With two fills no executor does: the cell to the right of the source gets the fill of
    the cell below it. -/
theorem bind_cornered_mixed : decodePlan (writePlan (cornered 1 2)) = .ok (cornered 1 2) ∧
    bind (cornered 1 2) noSymbols .auto = .ok (corneredBound 1 2) ∧
    resolveSymbols (cornered 1 2).symbols noSymbols = .ok [] ∧
    concreteAxes (cornered 1 2) noSymbols = .ok (corneredAxes 1 2) ∧
    concretePads [] (cornered 1 2).padFill = .ok (corneredRegions 1 2) ∧
    ¬ PadsFilled 4 (corneredAxes 1 2) (corneredRegions 1 2) (RunsH2D (corneredBound 1 2)) ∧
    ¬ PadsFilled 4 (corneredAxes 1 2) (corneredRegions 1 2)
      (RunsPipelined (corneredBound 1 2)) ∧
    ¬ PadsFilled 4 (corneredAxes 1 2) (corneredRegions 1 2) (RunsHost (corneredBound 1 2)) := by
  have hpad : IsPad (corneredAxes 1 2) (corneredRegions 1 2) [0, 1] 2 := by
    constructor
    · unfold Padding.Box
      decide +kernel
    · decide +kernel
  refine ⟨by decide +kernel, by decide +kernel, by decide +kernel, by decide +kernel,
    by decide +kernel, fun h => ?_, fun h => ?_, fun h => ?_⟩
  · have hbyte := (h _ _ hpad).2 (fun _ => 0) (fun _ => 0) _ rfl 0 (by decide) (by decide)
    revert hbyte
    decide +kernel
  · have hbyte := (h _ _ hpad).2 (fun _ => 0) (fun _ => 0) _
      ⟨2, 0, inlineStaging, divides_inlineStaging, rfl⟩ 0 (by decide) (by decide)
    revert hbyte
    decide +kernel
  · have hbyte := (h _ _ hpad).2 (fun _ => 0) (fun _ => 0) _
      ⟨hostBuffers, [(0, 1)], inlineStaging, divides_inlineStaging, by
        intro outer houter
        cases houter
        exact partition_single (by decide), rfl⟩ 0 (by decide) (by decide)
    revert hbyte
    decide +kernel

end SymReloc
