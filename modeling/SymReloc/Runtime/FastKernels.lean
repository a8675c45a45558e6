import SymReloc.Runtime.DividedWork

/-!
# Fast kernels

A kernel other than the generic walk writes what the plain walk writes: the contiguous
kernels keep its order, a transpose writes every cell once, and strided runs that stream
the middle axis first leave a cell with the element that the plain walk leaves there,
unless strips overlap (`executes_plain_iff`).
-/

namespace SymReloc

open Outcome Writes

namespace HostCall

variable {program : Program} {plan : TypedRelocationPlan} {fromStage toStage : Nat}
  {chunk : Option Chunk} {source : Memory Nat} {call : HostCall}

/-! ### The order of strips -/

/-- The source offset that is copied to a cell last. -/
def lastSource (moves : List (Int × Int)) (d : Int) : Option Int :=
  last (moves.map fun move => (⟨move.2, move.1⟩ : Write Int)) d

/-- The elements of a call have cells in its window. -/
def Inside (call : HostCall) : Prop :=
  ∀ move ∈ call.moves, call.window.origin ≤ move.2 ∧
    move.2 < call.window.origin + call.window.elements

/-- The stages of a call make the same bits of every value at a destination offset. -/
def Constant (call : HostCall) (d : Int) : Prop :=
  ∀ bits bits', bits < 2 ^ (8 * call.state.widthFrom) → bits' < 2 ^ (8 * call.state.widthFrom) →
    call.state.target d bits = call.state.target d bits'

/-- Strips that stream the middle axis first leave every cell with the element that the
    walker's order leaves there, or with the same bits. -/
def KeepsOrder (call : HostCall) : Prop :=
  ∀ outer middle inner, call.kernel = .stridedRuns →
    call.layout.walkAxes = [outer, middle, inner] → outer.srcStride < middle.srcStride →
    call.Inside → ∀ d,
      lastSource (WalkState.columnStrips outer middle inner call.window.first call.window.last) d =
        lastSource (WalkState.rowStrips outer middle inner call.window.first call.window.last) d ∨
      call.Constant d

theorem lastSource_eq_none {moves : List (Int × Int)} {d : Int} :
    lastSource moves d = none ↔ ∀ move ∈ moves, move.2 ≠ d := by
  rw [lastSource, last_eq_none, List.forall_mem_map]

theorem last_map_move (state : WalkState) (moves : List (Int × Int)) (cell : Int) :
    last (moves.map state.move) cell = (lastSource moves (cell + state.origin)).map
      fun src => (state.target (cell + state.origin) (state.loadBits src)).value := by
  have hmap : moves.map state.move = ((moves.map fun move => (⟨move.2, move.1⟩ : Write Int)).map
      fun write => (⟨write.cell, (state.target write.cell (state.loadBits write.value)).value⟩ :
        CellWrite)).map (Write.rebase state.origin) := by
    rw [List.map_map, List.map_map]
    rfl
  rw [hmap, last_rebase]
  exact last_map_value (fun d src => (state.target d (state.loadBits src)).value) _ _

/-- The writes of one cell come from the moves to it. -/
theorem on_map_place {α : Type} {place : Int × Int → Write α} {base : Int}
    (hplace : ∀ move, (place move).cell = move.2 - base) (moves : List (Int × Int)) (cell : Int) :
    on cell (moves.map place) = (moves.filter fun move => move.2 = cell + base).map place := by
  rw [on, List.filter_map]
  congr 1
  refine List.filter_congr fun move _ => ?_
  have hiff : (place move).cell = cell ↔ move.2 = cell + base := by
    rw [hplace]
    omega
  simp only [Function.comp_apply, hiff]

/-- What the step of a call writes. -/
def write (call : HostCall) (move : Int × Int) : CellWrite :=
  match call.step move with
  | .ok write => write
  | _ => ⟨move.2 - call.state.origin, 0⟩

theorem write_cell (move : Int × Int) : (call.write move).cell = move.2 - call.state.origin := by
  unfold write
  split
  · rename_i hstep
    exact step_cell hstep
  · rfl

theorem write_eq_move (hkernel : call.kernel ≠ .generic) : call.write = call.state.move := by
  funext move
  rw [write, step, if_neg hkernel]

namespace Checked

/-- The kernels that go row by row have the plain walk's order. -/
theorem flatMap_order (hsound : program.Sound plan)
    (h : call.Checked program fromStage toStage chunk source)
    (horder : ∀ first last, call.order first last = rangedVisits call.layout.walkAxes
      (call.window.first + first) (call.window.first + last) 0 0)
    (htiled : call.kernel ≠ .tiledTranspose) {parts : List (Int × Int)}
    (hparts : Partition 0 parts call.units) :
    (parts.flatMap fun part => call.order part.1 part.2) = call.moves := by
  obtain ⟨axis, axes, haxes⟩ := h.exists_axis hsound
  have hend := row_units call
  rw [row, if_neg htiled] at hend
  simp only [horder, moves, haxes, rangedVisits]
  rw [hparts.flatMap_intRange, add_zero, hend]

/-- Where rows are disjoint a cell has strips of one row only, which keep their order. -/
theorem filter_strips (hsound : program.Sound plan)
    (h : call.Checked program fromStage toStage chunk source) (hdisjoint : call.rowsDisjoint)
    {outer middle inner : WalkAxis} (haxes : call.layout.walkAxes = [outer, middle, inner])
    (hlo : outer.lo = 0 ∧ middle.lo = 0 ∧ inner.lo = 0)
    (hunit : inner.srcStride = 1 ∧ inner.dstStride = 1) (first last d : Int) :
    (WalkState.columnStrips outer middle inner first last).filter (fun move => move.2 = d) =
      (WalkState.rowStrips outer middle inner first last).filter fun move => move.2 = d := by
  have hall := hsound.laid.axes
  rw [← h.layout_eq, haxes] at hall
  unfold rowsDisjoint at hdisjoint
  rw [haxes] at hdisjoint
  have hmiddle := hall middle (by simp)
  have hinner := hall inner (by simp)
  have hspan : 0 ≤ ([middle, inner].map fun other =>
      (other.extent - 1) * other.dstStride).sum := by
    have := mul_nonneg (show 0 ≤ middle.extent - 1 by omega) hmiddle.2.2
    have := mul_nonneg (show 0 ≤ inner.extent - 1 by omega) hinner.2.2
    simp only [List.map_cons, List.map_nil, List.sum_cons, List.sum_nil]
    omega
  have hvisit : ∀ i j : Int, ∀ move ∈ WalkState.stripVisits outer middle inner i j,
      (0 ≤ j ∧ j < middle.extent) → move ∈ visits [middle, inner] (i * outer.srcStride)
        ((i + outer.lo) * outer.dstStride) := by
    intro i j move hmove hj
    rw [WalkState.stripVisits, List.mem_map] at hmove
    obtain ⟨k, hk, rfl⟩ := hmove
    simp only [visits, List.mem_flatMap, List.mem_singleton, mem_intRange, hlo, hunit, add_zero,
      mul_one]
    exact ⟨j, hj, k, mem_intRange.mp hk, rfl⟩
  refine WalkState.filter_columnStrips fun i i' j j' move hmove move' hmove' hj hj' hcell => ?_
  exact row_eq_of_cell_eq (fun other hother => (hall other (by
    rw [List.mem_cons]
    exact .inr hother)).2.2) hdisjoint (hvisit i j move hmove hj) (hvisit i' j' move' hmove' hj')
    hcell hspan

theorem keepsOrder_of_disjoint (hsound : program.Sound plan)
    (h : call.Checked program fromStage toStage chunk source) (hdisjoint : call.rowsDisjoint) :
    call.KeepsOrder := by
  intro outer middle inner hkernel haxes _ _ d
  obtain ⟨_, _, _, haxes', hlo, hunit⟩ := h.strided hsound hkernel
  have heq := haxes.symm.trans haxes'
  simp only [List.cons.injEq, and_true] at heq
  obtain ⟨rfl, rfl, rfl⟩ := heq
  have hcell : ∀ move : Int × Int, (⟨move.2, move.1⟩ : Write Int).cell = move.2 - 0 := fun _ =>
    (sub_zero _).symm
  left
  refine last_eq_of_on ?_
  rw [on_map_place hcell, on_map_place hcell, h.filter_strips hsound hdisjoint haxes hlo hunit]

theorem last_strips (hsound : program.Sound plan)
    (h : call.Checked program fromStage toStage chunk source) (hkeeps : call.KeepsOrder)
    (hinside : call.Inside) (hkernel : call.kernel = .stridedRuns) {parts : List (Int × Int)}
    (hdivided : call.Divided parts) (cell : Int) :
    last ((parts.flatMap fun part => call.order part.1 part.2).map call.write) cell =
      last (call.moves.map call.write) cell := by
  have hle := (h.first_le_last hsound).2
  obtain ⟨hparts, hworkers⟩ := hdivided.partition hle
  obtain ⟨outer, middle, inner, haxes, hlo, hunit⟩ := h.strided hsound hkernel
  have hrows : ∀ first last, rangedVisits [outer, middle, inner] first last 0 0 =
      WalkState.rowStrips outer middle inner first last := WalkState.rangedVisits_strips hlo hunit
  have hmoves : call.moves =
      WalkState.rowStrips outer middle inner call.window.first call.window.last := by
    rw [moves, haxes, hrows]
  by_cases hstream : middle.srcStride ≤ outer.srcStride
  · rw [h.flatMap_order hsound (fun first last => ?_) (by rw [hkernel]; decide) hparts]
    unfold order
    rw [hkernel, haxes]
    simp only [if_pos hstream, hrows]
  · have horder : ∀ first last, call.order first last = WalkState.columnStrips outer middle inner
        (call.window.first + first) (call.window.first + last) := by
      intro first last
      unfold order
      rw [hkernel, haxes]
      simp only [if_neg hstream]
    have hend : call.window.first + call.units = call.window.last := by
      have hrow := row_units call
      rwa [row, if_neg (by rw [hkernel]; decide)] at hrow
    by_cases hdisjoint : call.rowsDisjoint
    · refine last_eq_of_on ?_
      rw [on_map_place write_cell, on_map_place write_cell, hmoves]
      congr 1
      have hfilter := h.filter_strips hsound hdisjoint haxes hlo hunit
      simp only [horder, List.filter_flatMap, hfilter, WalkState.rowStrips]
      rw [hparts.flatMap_intRange, add_zero, hend]
    · -- one worker streams all rows
      have hone := hworkers.resolve_right hdisjoint
      have hflat : (parts.flatMap fun part => call.order part.1 part.2) =
          WalkState.columnStrips outer middle inner call.window.first call.window.last := by
        rcases parts with _ | ⟨part, _ | ⟨other, parts⟩⟩
        · have hzero : (0 : Int) = call.units := hparts
          have hnil : intRange call.window.first call.window.last = [] :=
            intRange_of_le (by omega)
          simp [WalkState.columnStrips, hnil]
        · obtain ⟨hstart, -, hfinish⟩ := hparts
          have hlast : part.2 = call.units := hfinish
          rw [List.flatMap_cons, List.flatMap_nil, List.append_nil, horder, hstart, hlast, add_zero,
            hend]
        · exact absurd hone (by simp)
      rw [hflat, hmoves, write_eq_move (by rw [hkernel]; decide), last_map_move, last_map_move]
      rcases hkeeps outer middle inner hkernel haxes (not_le.mp hstream) hinside
        (cell + call.state.origin) with hsame | hconstant
      · rw [hsame]
      · have hnone : lastSource (WalkState.columnStrips outer middle inner call.window.first
            call.window.last) (cell + call.state.origin) = none ↔
            lastSource (WalkState.rowStrips outer middle inner call.window.first
              call.window.last) (cell + call.state.origin) = none := by
          simp only [lastSource_eq_none, WalkState.mem_columnStrips]
        generalize lastSource (WalkState.columnStrips outer middle inner call.window.first
          call.window.last) (cell + call.state.origin) = left at hnone
        generalize lastSource (WalkState.rowStrips outer middle inner call.window.first
          call.window.last) (cell + call.state.origin) = right at hnone
        cases left with
        | none => rw [hnone.mp rfl]
        | some src =>
            cases right with
            | none => exact absurd (hnone.mpr rfl) (by simp)
            | some src' =>
                rw [Option.map_some, Option.map_some, hconstant _ _
                  (call.state.loadBits_lt src) (call.state.loadBits_lt src')]

/-- Whatever the division of the work, a cell is last written as by the plain walk. -/
theorem last_divided (hsound : program.Sound plan)
    (h : call.Checked program fromStage toStage chunk source) (hkeeps : call.KeepsOrder)
    (hinside : call.Inside) {parts : List (Int × Int)} (hdivided : call.Divided parts)
    (cell : Int) :
    last ((parts.flatMap fun part => call.order part.1 part.2).map call.write) cell =
      last (call.moves.map call.write) cell := by
  have hle := (h.first_le_last hsound).2
  obtain ⟨hparts, hworkers⟩ := hdivided.partition hle
  cases hkernel : call.kernel with
  | generic =>
      rw [h.flatMap_order hsound (fun first last => by unfold order; rw [hkernel])
        (by rw [hkernel]; decide) hparts]
  | contiguousCast =>
      rw [h.flatMap_order hsound (fun first last => by unfold order; rw [hkernel])
        (by rw [hkernel]; decide) hparts]
  | contiguousStages =>
      rw [h.flatMap_order hsound (fun first last => by unfold order; rw [hkernel])
        (by rw [hkernel]; decide) hparts]
  | tiledTranspose =>
      obtain ⟨outer, inner, haxes, hsrc, hdst, hextent⟩ := h.tiled hkernel
      have hmem : ∀ move, (move ∈ parts.flatMap fun part => call.order part.1 part.2) ↔
          move ∈ call.moves := by
        intro move
        rw [List.mem_flatMap]
        exact h.mem_units hsound hparts
      have hone : ∀ move ∈ call.moves, ∀ move' ∈ call.moves, move.2 = move'.2 → move = move' := by
        intro move hmove move' hmove' hcell
        simp only [moves, haxes, mem_rangedVisits, visits, List.mem_flatMap, mem_intRange,
          List.mem_singleton, hsrc, hdst, mul_one, zero_add] at hmove hmove'
        obtain ⟨i, hi, j, hj, rfl⟩ := hmove
        obtain ⟨i', hi', j', hj', rfl⟩ := hmove'
        simp only at hcell
        have hrow : i + outer.lo = i' + outer.lo := by
          have hcol : 0 ≤ j ∧ j < outer.dstStride := ⟨hj.1, hj.2.trans_le hextent⟩
          have hcol' : 0 ≤ j' ∧ j' < outer.dstStride := ⟨hj'.1, hj'.2.trans_le hextent⟩
          exact le_antisymm ((le_row_iff hcol').mp (by omega)) ((le_row_iff hcol).mp (by omega))
        obtain rfl : i = i' := by omega
        obtain rfl : j = j' := by omega
        rfl
      refine last_eq_of_mem (fun write => ?_) (fun x hx y hy hcell => ?_) cell
      · simp only [List.mem_map, hmem]
      · obtain ⟨move, hmove, rfl⟩ := List.mem_map.mp hx
        obtain ⟨move', hmove', rfl⟩ := List.mem_map.mp hy
        rw [write_cell, write_cell] at hcell
        rw [hone move ((hmem move).mp hmove) move' ((hmem move').mp hmove') (by omega)]
  | stridedRuns =>
      exact h.last_strips hsound hkeeps hinside hkernel hdivided cell

end Checked

/-! ### Runs -/

/-- Every element of a call has a cell and a value. -/
def Good (call : HostCall) : Prop :=
  call.Inside ∧ ∀ move ∈ call.moves, ∃ write, call.step move = .ok write

theorem bounded_eq_ok {run : Outcome ExecutionError (List CellWrite)} {writes : List CellWrite} :
    call.bounded run = .ok writes ↔ run = .ok writes ∧
      ∀ write ∈ writes, 0 ≤ write.cell ∧ write.cell < call.window.elements := by
  cases run with
  | error reason => simp [bounded]
  | fault kind => simp [bounded]
  | ok values =>
      rw [bounded, ok_bind]
      by_cases h : ∀ write ∈ values, 0 ≤ write.cell ∧ write.cell < call.window.elements
      · rw [if_pos h, pure_eq, Outcome.ok.injEq]
        constructor
        · rintro rfl
          exact ⟨rfl, h⟩
        · exact fun hrun => hrun.1
      · rw [if_neg h]
        constructor
        · intro hrun
          cases hrun
        · rintro ⟨hrun, hbounds⟩
          cases hrun
          exact absurd hbounds h

theorem mapEach_step_eq_ok {moves : List (Int × Int)} {writes : List CellWrite} :
    mapEach moves call.step = .ok writes ↔
      (∀ move ∈ moves, ∃ write, call.step move = .ok write) ∧ writes = moves.map call.write := by
  have hok : (∀ move ∈ moves, ∃ write, call.step move = .ok write) →
      mapEach moves call.step = .ok (moves.map call.write) := by
    intro hall
    refine mapEach_of_ok fun move hmove => ?_
    obtain ⟨write, hwrite⟩ := hall move hmove
    rw [HostCall.write, hwrite]
  constructor
  · intro hrun
    have hall : ∀ move ∈ moves, ∃ write, call.step move = .ok write := by
      intro move hmove
      obtain ⟨k, hk⟩ := List.mem_iff_getElem?.mp hmove
      obtain ⟨hlt, rfl⟩ := List.getElem?_eq_some_iff.mp hk
      have hforall := mapEach_eq_ok.mp hrun
      exact ⟨_, hforall.get hlt (hforall.length_eq ▸ hlt)⟩
    rw [hok hall, Outcome.ok.injEq] at hrun
    exact ⟨hall, hrun.symm⟩
  · rintro ⟨hall, rfl⟩
    exact hok hall

namespace Checked

/-- The cells of a list of elements lie in the window exactly when their writes do. -/
theorem writes_inside (h : call.Checked program fromStage toStage chunk source)
    (moves : List (Int × Int)) :
    (∀ write ∈ moves.map call.write, 0 ≤ write.cell ∧ write.cell < call.window.elements) ↔
      ∀ move ∈ moves, call.window.origin ≤ move.2 ∧
        move.2 < call.window.origin + call.window.elements := by
  rw [List.forall_mem_map]
  refine forall₂_congr fun move _ => ?_
  rw [write_cell, h.program_eq.2.2.2.2]
  omega

theorem plainWalk_eq_ok (hsound : program.Sound plan)
    (hcall : prologue program fromStage toStage chunk source = .ok call)
    {memory result : Memory Nat} :
    plainWalk program fromStage toStage chunk source memory = .ok result ↔
      call.Good ∧ result = run (call.moves.map call.write)
        (run (prefill call.state.widthTo call.window call.fill) memory) := by
  have h := prologue_eq_ok hcall
  obtain ⟨axis, axes, haxes⟩ := h.exists_axis hsound
  obtain ⟨-, horigin, hend⟩ := h.window_bounds hsound haxes
  have hsame : call.Inside → mapEach call.moves (plainElement call.state) =
      mapEach call.moves call.step := by
    intro hinside
    refine mapEach_congr fun move hmove => (h.step_eq_plain hsound ?_).symm
    have := hinside move hmove
    omega
  rw [plainWalk, hcall, ok_bind]
  simp only [bind_ok_iff, bounded_eq_ok, pure_eq, Outcome.ok.injEq]
  constructor
  · rintro ⟨writes, ⟨hrun, hbounds⟩, rfl⟩
    have hinside : call.Inside := by
      intro move hmove
      obtain ⟨k, hk⟩ := List.mem_iff_getElem?.mp hmove
      obtain ⟨hlt, rfl⟩ := List.getElem?_eq_some_iff.mp hk
      have hforall := mapEach_eq_ok.mp hrun
      have hlt' : k < writes.length := hforall.length_eq ▸ hlt
      have hcell := plainElement_cell (hforall.get hlt hlt')
      have hbound := hbounds _ (List.getElem_mem hlt')
      simp only [List.get_eq_getElem, h.program_eq.2.2.2.2] at hcell
      omega
    rw [hsame hinside, mapEach_step_eq_ok] at hrun
    obtain ⟨hall, rfl⟩ := hrun
    exact ⟨⟨hinside, hall⟩, rfl⟩
  · rintro ⟨⟨hinside, hall⟩, rfl⟩
    refine ⟨_, ⟨?_, (h.writes_inside call.moves).mpr hinside⟩, rfl⟩
    rw [hsame hinside]
    exact mapEach_step_eq_ok.mpr ⟨hall, rfl⟩

/-- The workers of a call succeed exactly when its elements are good. -/
theorem finishes_eq_ok (hsound : program.Sound plan)
    (h : call.Checked program fromStage toStage chunk source) {aligned : Bool}
    {parts : List (Int × Int)} (hdivided : call.Divided parts) {memory result : Memory Nat}
    {outcome : Outcome ExecutionError (Memory Nat)}
    (hfinishes : Finishes (parts.map fun part => call.bounded (call.work aligned part.1 part.2))
      memory outcome) :
    outcome = .ok result ↔ call.Good ∧
      result = run ((parts.flatMap fun part => call.order part.1 part.2).map call.write)
        memory := by
  obtain ⟨hwindow, hle⟩ := h.first_le_last hsound
  obtain ⟨hparts, hworkers⟩ := hdivided.partition hle
  have hwork : ∀ part ∈ parts, ∀ writes, call.bounded (call.work aligned part.1 part.2) =
      .ok writes ↔ (∀ move ∈ call.order part.1 part.2, (call.window.origin ≤ move.2 ∧
        move.2 < call.window.origin + call.window.elements) ∧
          ∃ write, call.step move = .ok write) ∧
        writes = (call.order part.1 part.2).map call.write := by
    intro part hpart writes
    have hbounds := hparts.bounds hpart
    rw [bounded_eq_ok, h.work_eq_mapEach hsound hwindow aligned hbounds.1 hbounds.2.1.le,
      mapEach_step_eq_ok]
    constructor
    · rintro ⟨⟨hall, rfl⟩, hinside⟩
      rw [h.writes_inside] at hinside
      exact ⟨fun move hmove => ⟨hinside move hmove, hall move hmove⟩, rfl⟩
    · rintro ⟨hall, rfl⟩
      exact ⟨⟨fun move hmove => (hall move hmove).2, rfl⟩,
        (h.writes_inside _).mpr fun move hmove => (hall move hmove).1⟩
  have hgood : call.Good ↔ ∀ part ∈ parts, ∀ move ∈ call.order part.1 part.2,
      (call.window.origin ≤ move.2 ∧ move.2 < call.window.origin + call.window.elements) ∧
        ∃ write, call.step move = .ok write := by
    constructor
    · rintro ⟨hinside, hall⟩ part hpart move hmove
      have hmem := (h.mem_units hsound hparts).mp ⟨part, hpart, hmove⟩
      exact ⟨hinside move hmem, hall move hmem⟩
    · intro hall
      constructor
      · intro move hmove
        obtain ⟨part, hpart, horder⟩ := (h.mem_units hsound hparts).mpr hmove
        exact (hall part hpart move horder).1
      · intro move hmove
        obtain ⟨part, hpart, horder⟩ := (h.mem_units hsound hparts).mpr hmove
        exact (hall part hpart move horder).2
  -- the lists of workers that all succeed, and what any interleaving of them leaves
  have hlists : call.Good → (parts.map fun part => call.bounded (call.work aligned part.1 part.2)) =
      (parts.map fun part => (call.order part.1 part.2).map call.write).map .ok := by
    intro hcall
    rw [List.map_map]
    refine List.map_congr_left fun part hpart => ?_
    exact (hwork part hpart _).mpr ⟨hgood.mp hcall part hpart, rfl⟩
  have hinterleaved : ∀ history : List (Nat × CellWrite),
      Interleaves (parts.map fun part => (call.order part.1 part.2).map call.write) history →
      run (history.map Prod.snd) memory =
        run ((parts.flatMap fun part => call.order part.1 part.2).map call.write) memory := by
    intro history hhistory
    have hapart : Apart (parts.map fun part => (call.order part.1 part.2).map call.write) := by
      rcases hworkers with hone | hdisjoint
      · match parts, hone with
        | [], _ => exact List.Pairwise.nil
        | [part], _ => exact List.pairwise_singleton _ _
      · exact h.apart hsound hparts hdisjoint write_cell
    rw [run_interleaved hhistory hapart, List.map_flatMap, List.flatMap_def]
  cases hfinishes with
  | written lists history hruns hhistory =>
      rw [Outcome.ok.injEq]
      have hcall : call.Good := by
        refine hgood.mpr fun part hpart => ?_
        have hmem : call.bounded (call.work aligned part.1 part.2) ∈ lists.map .ok := by
          rw [← hruns]
          exact List.mem_map_of_mem hpart
        obtain ⟨writes, -, hwrites⟩ := List.mem_map.mp hmem
        exact ((hwork part hpart writes).mp hwrites.symm).1
      have hsame : lists = parts.map fun part => (call.order part.1 part.2).map call.write :=
        List.map_injective_iff.mpr (fun _ _ heq => Outcome.ok.inj heq)
          (hruns.symm.trans (hlists hcall))
      rw [hinterleaved history (hsame ▸ hhistory)]
      constructor
      · rintro rfl
        exact ⟨hcall, rfl⟩
      · exact fun hresult => hresult.2.symm
  | failed reason hmem =>
      constructor
      · intro heq
        cases heq
      · rintro ⟨hcall, -⟩
        rw [hlists hcall] at hmem
        obtain ⟨_, -, heq⟩ := List.mem_map.mp hmem
        cases heq
  | faulted kind hmem =>
      constructor
      · intro heq
        cases heq
      · rintro ⟨hcall, -⟩
        rw [hlists hcall] at hmem
        obtain ⟨_, -, heq⟩ := List.mem_map.mp hmem
        cases heq

end Checked

end HostCall

/-! ### The exact condition -/

/-- A range of stages runs as the plain walk does, over all rows or those of a chunk: it
    succeeds exactly when the walk does, and leaves the same memory, whatever the division
    of the work, the interleaving of the workers and the alignment of the buffers. -/
def RunsAsWalked (program : Program) (fromStage toStage : Nat) (chunk : Option Chunk) : Prop :=
  ∀ (aligned : Bool) (source memory : Memory Nat),
    (∃ result, Executes program fromStage toStage chunk aligned source memory result) ∧
      ∀ result, Executes program fromStage toStage chunk aligned source memory result →
        ∀ written, result = .ok written ↔
          plainWalk program fromStage toStage chunk source memory = .ok written

section Exact

variable {program : Program} {plan : TypedRelocationPlan} {fromStage toStage : Nat}
  {chunk : Option Chunk} {source : Memory Nat} {call : HostCall}

/-- All units in the hands of one worker. -/
theorem HostCall.exists_divided (call : HostCall) :
    ∃ parts, call.Divided parts ∧ parts.length ≤ 1 := by
  refine ⟨_, .inl rfl, ?_⟩
  split
  · exact le_refl 1
  · exact Nat.zero_le 1

theorem exists_executes (program : Program) (fromStage toStage : Nat) (chunk : Option Chunk)
    (aligned : Bool) (source memory : Memory Nat) :
    ∃ result, Executes program fromStage toStage chunk aligned source memory result := by
  unfold Executes
  cases prologue program fromStage toStage chunk source with
  | error reason => exact ⟨_, rfl⟩
  | fault kind => exact ⟨_, rfl⟩
  | ok call =>
      obtain ⟨parts, hdivided, hone⟩ := call.exists_divided
      obtain ⟨result, hfinishes⟩ := exists_finishes
        (parts.map fun part => call.bounded (call.work aligned part.1 part.2))
        (by rwa [List.length_map]) _
      exact ⟨result, parts, hdivided, hfinishes⟩

/-- The checks do not read the source. -/
theorem prologue_source (hcall : prologue program fromStage toStage chunk source = .ok call)
    (source' : Memory Nat) : prologue program fromStage toStage chunk source' =
      .ok { call with state := { call.state with source := source' } } := by
  simp only [prologue, bind_ok_iff, exists_unit, require_eq_ok, pure_eq, Outcome.ok.injEq]
    at hcall ⊢
  obtain ⟨hrange, hsettled, fill, hfill, widthTo, hwidthTo, window, hwindow, widthFrom, hwidthFrom,
    rfl⟩ := hcall
  exact ⟨hrange, hsettled, fill, hfill, widthTo, hwidthTo, window, hwindow, widthFrom, hwidthFrom,
    rfl⟩

/-- A run succeeds exactly when its call's elements are good, and then leaves what they
    leave in the plain walk's order. -/
theorem Program.Sound.executes_eq_ok (hsound : program.Sound plan)
    (hkeeps : ∀ call, prologue program fromStage toStage chunk source = .ok call → call.KeepsOrder)
    {aligned : Bool} {memory written : Memory Nat} {result : Outcome ExecutionError (Memory Nat)}
    (hexecutes : Executes program fromStage toStage chunk aligned source memory result) :
    result = .ok written ↔ ∃ call, prologue program fromStage toStage chunk source = .ok call ∧
      call.Good ∧ written = run (call.moves.map call.write)
        (run (prefill call.state.widthTo call.window call.fill) memory) := by
  unfold Executes at hexecutes
  cases hcall : prologue program fromStage toStage chunk source with
  | error reason =>
      rw [hcall] at hexecutes
      subst hexecutes
      simp
  | fault kind =>
      rw [hcall] at hexecutes
      subst hexecutes
      simp
  | ok call =>
      rw [hcall] at hexecutes
      obtain ⟨parts, hdivided, hfinishes⟩ := hexecutes
      have h := prologue_eq_ok hcall
      simp only [Outcome.ok.injEq, exists_eq_left']
      rw [h.finishes_eq_ok hsound hdivided hfinishes]
      refine and_congr_right fun hgood => ?_
      have hsame : ∀ memory, run ((parts.flatMap fun part => call.order part.1 part.2).map
          call.write) memory = run (call.moves.map call.write) memory := fun memory =>
        run_congr fun cell => h.last_divided hsound (hkeeps call hcall) hgood.1 hdivided cell
      rw [hsame]

/-- Calls that keep the order run as the plain walk. -/
theorem Program.Sound.runsAsWalked (hsound : program.Sound plan)
    (hkeeps : ∀ source call, prologue program fromStage toStage chunk source = .ok call →
      call.KeepsOrder) : RunsAsWalked program fromStage toStage chunk := by
  intro aligned source memory
  refine ⟨exists_executes _ _ _ _ _ _ _, fun result hexecutes written => ?_⟩
  rw [hsound.executes_eq_ok (hkeeps source) hexecutes]
  constructor
  · rintro ⟨call, hcall, hgood⟩
    exact (HostCall.Checked.plainWalk_eq_ok hsound hcall).mpr hgood
  · intro hwalk
    obtain ⟨call, hcall, -⟩ := bind_ok_iff.mp hwalk
    exact ⟨call, hcall, (HostCall.Checked.plainWalk_eq_ok hsound hcall).mp hwalk⟩

/-- Strips that stream the source and run as the plain walk leave in every cell what the
    walk leaves there. -/
theorem Program.Sound.strips_agree (hsound : program.Sound plan)
    (hruns : RunsAsWalked program fromStage toStage chunk)
    (hcall : prologue program fromStage toStage chunk source = .ok call)
    (hkernel : call.kernel = .stridedRuns) {outer middle inner : WalkAxis}
    (haxes : call.layout.walkAxes = [outer, middle, inner])
    (hstream : outer.srcStride < middle.srcStride) (hinside : call.Inside) {d src src' : Int}
    (hcolumn : HostCall.lastSource (WalkState.columnStrips outer middle inner call.window.first
      call.window.last) d = some src)
    (hrow : HostCall.lastSource (WalkState.rowStrips outer middle inner call.window.first
      call.window.last) d = some src') :
    call.state.target d (call.state.loadBits src) =
      call.state.target d (call.state.loadBits src') := by
  have h := prologue_eq_ok hcall
  obtain ⟨-, hle⟩ := h.first_le_last hsound
  have hgeneric : call.kernel ≠ .generic := by rw [hkernel]; decide
  obtain ⟨_, _, _, haxes', hlo, hunit⟩ := h.strided hsound hkernel
  have heq := haxes.symm.trans haxes'
  simp only [List.cons.injEq, and_true] at heq
  obtain ⟨rfl, rfl, rfl⟩ := heq
  have hmoves : call.moves = WalkState.rowStrips outer middle inner call.window.first
      call.window.last := by
    rw [HostCall.moves, haxes, WalkState.rangedVisits_strips hlo hunit]
  have hend := HostCall.row_units call
  rw [HostCall.row, if_neg (by rw [hkernel]; decide)] at hend
  -- one worker has all rows, of which there is at least the one of the cell
  obtain ⟨move, hmove, -⟩ := exists_of_last hrow
  have hlt : call.window.first < call.window.last := by
    by_contra hnot
    rw [WalkState.rowStrips, intRange_of_le (not_lt.mp hnot)] at hmove
    simp at hmove
  have hdivided : call.Divided [(0, call.units)] := .inl (by rw [if_pos hlt])
  have hflat : ([(0, call.units)].flatMap fun part => call.order part.1 part.2) =
      WalkState.columnStrips outer middle inner call.window.first call.window.last := by
    rw [List.flatMap_cons, List.flatMap_nil, List.append_nil]
    unfold HostCall.order
    rw [hkernel, haxes]
    simp only [if_neg (not_le.mpr hstream), add_zero, hend]
  have hgood : call.Good := by
    refine ⟨hinside, fun move _ => ⟨call.state.move move, ?_⟩⟩
    rw [HostCall.step, if_neg hgeneric]
  obtain ⟨result, hfinishes⟩ := exists_finishes
    ([(0, call.units)].map fun part => call.bounded (call.work true part.1 part.2)) (le_refl 1)
    (run (prefill call.state.widthTo call.window call.fill) fun _ => 0)
  have hexecutes : Executes program fromStage toStage chunk true source (fun _ => 0) result := by
    unfold Executes
    rw [hcall]
    exact ⟨_, hdivided, hfinishes⟩
  have hleft := (h.finishes_eq_ok hsound hdivided hfinishes).mpr ⟨hgood, rfl⟩
  have hright : plainWalk program fromStage toStage chunk source (fun _ => 0) = .ok (run
      (call.moves.map call.write)
      (run (prefill call.state.widthTo call.window call.fill) fun _ => 0)) :=
    (HostCall.Checked.plainWalk_eq_ok hsound hcall).mpr ⟨hgood, rfl⟩
  have hsame := ((hruns true source fun _ => 0).2 result hexecutes _).mpr hright
  rw [hleft, Outcome.ok.injEq, hflat, hmoves, HostCall.write_eq_move hgeneric] at hsame
  have hcell := congrFun hsame (d - call.state.origin)
  have hd : d - call.state.origin + call.state.origin = d := by ring
  simp only [run_apply, HostCall.last_map_move, hd, hcolumn, hrow, Option.map_some,
    Option.getD_some] at hcell
  have htarget : ∀ bits bits', (call.state.target d bits).value =
      (call.state.target d bits').value →
      call.state.target d bits = call.state.target d bits' := by
    intro bits bits' hvalue
    simp only [WalkState.target, WalkState.storeBits] at hvalue ⊢
    rw [hvalue]
  exact htarget _ _ hcell

/-- A call runs as the plain walk only where it keeps the order. -/
theorem Program.Sound.keepsOrder (hsound : program.Sound plan)
    (hruns : RunsAsWalked program fromStage toStage chunk)
    (hcall : prologue program fromStage toStage chunk source = .ok call) : call.KeepsOrder := by
  intro outer middle inner hkernel haxes hstream hinside d
  cases hcolumn : HostCall.lastSource (WalkState.columnStrips outer middle inner call.window.first
      call.window.last) d with
  | none =>
      left
      rw [HostCall.lastSource_eq_none] at hcolumn
      simp only [WalkState.mem_columnStrips] at hcolumn
      exact (HostCall.lastSource_eq_none.mpr hcolumn).symm
  | some src =>
      cases hrow : HostCall.lastSource (WalkState.rowStrips outer middle inner call.window.first
          call.window.last) d with
      | none =>
          rw [HostCall.lastSource_eq_none] at hrow
          simp only [← WalkState.mem_columnStrips] at hrow
          rw [HostCall.lastSource_eq_none.mpr hrow] at hcolumn
          cases hcolumn
      | some src' =>
          by_cases hsame : src = src'
          · exact .inl (by rw [hsame])
          · right
            intro bits bits' hbits hbits'
            -- a source that holds the two values at the two places
            have hsource := prologue_source hcall
              fun offset => if offset = src then bits else bits'
            have hagree := hsound.strips_agree hruns hsource hkernel haxes hstream hinside hcolumn
              hrow
            simp only [WalkState.loadBits, if_neg (Ne.symm hsame), if_true,
              Nat.mod_eq_of_lt hbits, Nat.mod_eq_of_lt hbits'] at hagree
            exact hagree

/-- Decoded, bound and prepared: a range of stages runs as the plain walk, over all rows or
    those of a chunk, exactly when its strips keep the order. -/
theorem executes_plain_iff {data : List UInt8} {map : SymbolMap} {parameters : ParameterMap}
    {bound : TypedBoundPlan} (hdecode : decodeTypedPlan data = .ok plan)
    (hbind : bindTyped plan map parameters = .ok bound)
    (hprepare : prepareProgram bound = .ok program)
    (fromStage toStage : Nat) (chunk : Option Chunk) :
    RunsAsWalked program fromStage toStage chunk ↔
      ∀ source call, prologue program fromStage toStage chunk source = .ok call →
        call.KeepsOrder := by
  have hsound := Program.sound hdecode hbind hprepare
  constructor
  · intro hruns source call hcall
    exact hsound.keepsOrder hruns hcall
  · exact hsound.runsAsWalked

end Exact

/-! ### Four strips -/

def halfDesc (extents : List Int) : TensorDesc :=
  { denseDesc extents with elementType := ⟨.float, 16⟩ }

/-- The cast from f32 to f16. -/
def halfStage (extents : List Int) : ValueStage where
  transform := .cast
  policy := .ieeeRne
  input := ⟨⟨.float, 32⟩, .signless⟩
  output := ⟨⟨.float, 16⟩, .signless⟩
  shape := extents.map fun extent => [.pushConst extent]
  scale := .none
  zeroPoint := .none
  axis := -1
  channel := none

def noParameters : ParameterMap := ⟨[], List.nodup_nil⟩

/-- Two by two strips of eight cells, exchanged in the source; the two destination strides
    are the plan's own. -/
def strips (outer middle : Int) : TypedRelocationPlan where
  symbols := []
  source := denseDesc [2, 2, 8]
  result := halfDesc [2, 2, 8]
  layout :=
    { symbols := []
      src := denseDesc [2, 2, 8]
      dst := halfDesc [2, 2, 8]
      perm := [0, 1, 2]
      axes := [{ constantAxis 2 8 with dstStride := [.pushConst outer] },
        { constantAxis 2 16 with dstStride := [.pushConst middle] }, constantAxis 8 1]
      padFill := []
      divisibility := []
      alignment := []
      contiguity := []
      noCopy := false
      runtimePadCheck := false
      inverse := [[.pushDim 0], [.pushDim 1], [.pushDim 2]] }
  stages := [halfStage [2, 2, 8]]
  fills := []

def stripsBound (outer middle : Int) : TypedBoundPlan where
  layout :=
    { extents := [2, 2, 8]
      srcStrides := [8, 16, 1]
      dstStrides := [outer, middle, 1]
      perm := [0, 1, 2]
      padRegions := []
      elementSize := 2
      totalBytes := 64
      noCopy := false
      typed := true
      strategy := .singleThreadSimd
      L := 8
      requiredAlignments := [] }
  sourceExtents := [2, 2, 8]
  resultExtents := [2, 2, 8]
  sourceType := ⟨.float, 32⟩
  resultType := ⟨.float, 16⟩
  symbols := []
  stages :=
    [{ transform := .cast
       policy := .ieeeRne
       input := ⟨⟨.float, 32⟩, .signless⟩
       output := ⟨⟨.float, 16⟩, .signless⟩
       shape := [2, 2, 8]
       axis := -1
       channel := none
       scale := none
       zeroPoint := none }]
  fills := []
  cuts := [⟨0, ⟨.float, 32⟩, 32, 128⟩, ⟨1, ⟨.float, 16⟩, 32, 64⟩]
  sourceBytes := 128
  destinationBytes := 64
  parameterBytes := 0
  requirements := ["typed_execution_dispatch"]

def stripsProgram (outer middle : Int) : Program where
  plan := stripsBound outer middle
  stages :=
    [{ transform := .cast
       policy := .ieeeRne
       input := ⟨.float, 32⟩
       output := ⟨.float, 16⟩
       scale := []
       invScale := []
       zeroPoint := []
       perChannel := false
       channelIsDim := false
       channelDim := 0
       channelLength := 1 }]
  resultStrides := [16, 8, 1]
  sourceElements := 32
  resultElements := 32

/-- The one call of the program. -/
def stripsCall (outer middle : Int) (source : Memory Nat) : HostCall where
  state :=
    { program := stripsProgram outer middle
      fromStage := 0
      toStage := 1
      source := source
      widthFrom := 4
      widthTo := 2
      origin := 0 }
  kernel := .stridedRuns
  window := ⟨0, 2, 0, 32⟩
  fill := none

/-- Strips with cells of their own run as the plain walk. -/
theorem executes_strips_apart :
    decodeTypedPlan (writeTypedPlan (strips 16 8)) = .ok (strips 16 8) ∧
    bindTyped (strips 16 8) noSymbols noParameters = .ok (stripsBound 16 8) ∧
    prepareProgram (stripsBound 16 8) = .ok (stripsProgram 16 8) ∧
    RunsAsWalked (stripsProgram 16 8) 0 1 none := by
  have hdecode : decodeTypedPlan (writeTypedPlan (strips 16 8)) = .ok (strips 16 8) := by
    decide +kernel
  have hbind : bindTyped (strips 16 8) noSymbols noParameters = .ok (stripsBound 16 8) := by
    decide +kernel
  have hprepare : prepareProgram (stripsBound 16 8) = .ok (stripsProgram 16 8) := by
    decide +kernel
  refine ⟨hdecode, hbind, hprepare, (executes_plain_iff hdecode hbind hprepare 0 1 none).mpr ?_⟩
  intro source call hcall outer middle inner hkernel haxes hstream hinside d
  have hcall' : prologue (stripsProgram 16 8) 0 1 none source = .ok (stripsCall 16 8 source) := rfl
  rw [hcall', Outcome.ok.injEq] at hcall
  subst hcall
  have haxes' : (stripsCall 16 8 source).layout.walkAxes =
      [⟨2, 8, 16, 0, 0⟩, ⟨2, 16, 8, 0, 0⟩, ⟨8, 1, 1, 0, 0⟩] := by rfl
  have heq := haxes.symm.trans haxes'
  simp only [List.cons.injEq, and_true] at heq
  obtain ⟨rfl, rfl, rfl⟩ := heq
  have hone :
      ∀ x ∈ (WalkState.columnStrips ⟨2, 8, 16, 0, 0⟩ ⟨2, 16, 8, 0, 0⟩ ⟨8, 1, 1, 0, 0⟩ 0 2).map
        (fun move => (⟨move.2, move.1⟩ : Write Int)),
      ∀ y ∈ (WalkState.columnStrips ⟨2, 8, 16, 0, 0⟩ ⟨2, 16, 8, 0, 0⟩ ⟨8, 1, 1, 0, 0⟩ 0 2).map
        (fun move => (⟨move.2, move.1⟩ : Write Int)), x.cell = y.cell → x = y := by
    decide +kernel
  left
  refine last_eq_of_mem (fun write => ?_) hone d
  rw [List.mem_map, List.mem_map]
  exact exists_congr fun move => and_congr_left' WalkState.mem_columnStrips

/-- The second strip of the first row and the first of the second row share their cells: the
    walk leaves the latter there, the streamed strips the former. -/
theorem executes_strips_overlapping :
    decodeTypedPlan (writeTypedPlan (strips 8 8)) = .ok (strips 8 8) ∧
    bindTyped (strips 8 8) noSymbols noParameters = .ok (stripsBound 8 8) ∧
    prepareProgram (stripsBound 8 8) = .ok (stripsProgram 8 8) ∧
    ¬ RunsAsWalked (stripsProgram 8 8) 0 1 none := by
  have hdecode : decodeTypedPlan (writeTypedPlan (strips 8 8)) = .ok (strips 8 8) := by
    decide +kernel
  have hbind : bindTyped (strips 8 8) noSymbols noParameters = .ok (stripsBound 8 8) := by
    decide +kernel
  have hprepare : prepareProgram (stripsBound 8 8) = .ok (stripsProgram 8 8) := by
    decide +kernel
  refine ⟨hdecode, hbind, hprepare, fun hruns => ?_⟩
  have hcall : prologue (stripsProgram 8 8) 0 1 none (fun _ => 0) =
      .ok (stripsCall 8 8 fun _ => 0) := rfl
  have hkeeps := (Program.sound hdecode hbind hprepare).keepsOrder hruns hcall
    ⟨2, 8, 8, 0, 0⟩ ⟨2, 16, 8, 0, 0⟩ ⟨8, 1, 1, 0, 0⟩ rfl rfl (by decide)
    (by unfold HostCall.Inside; decide +kernel) 8
  rcases hkeeps with hsame | hconstant
  · revert hsame
    decide +kernel
  · -- zero and one differ as halves
    have hbits := hconstant 0 0x3f800000 (by decide) (by decide)
    revert hbits
    decide +kernel

end SymReloc
