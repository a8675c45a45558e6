import SymReloc.Dispatch.PooledBags

/-!
# Pooled programs end to end

`preparePooledBags` accepts offsets that cut every index array into bags.  A call on the
program then writes the sums of the bags its chunk asks for, or reports that one of their
indices is outside its table.  Two of the sizes are products without a test: the bytes of all
sums, and the least share of a worker.
-/

namespace SymReloc

open Outcome Writes Quant

/-! ### Calls -/

/-- The sums of the bags `[first, last)`, in a window that starts at the first of them, and
    nothing else. -/
structure DispatchProgram.Summed (program : DispatchProgram) (narrow : Bool)
    (add : Nat → Nat → Nat) (contents : Nat → Memory Nat) (first last : Int)
    (memory written : Memory Nat) : Prop where
  sums : ∀ b (t : Nat) table d, first ≤ b ∧ b < last → program.pooledTables[t]? = some table →
    0 ≤ d ∧ d < program.pooledDim →
      written ((b - first) * (program.pooledTables.length * program.pooledDim) +
          t * program.pooledDim + d) =
        storeSum narrow (bagSum add (contents t) program.pooledDim
          (table.bag program.pooledBags b) d 0)
  others : ∀ cell, ¬ (0 ≤ cell ∧
      cell < (last - first) * (program.pooledTables.length * program.pooledDim)) →
    written cell = memory cell

/-- The bags that a call asks for: all, or those of a chunk that has complete bags. -/
def DispatchProgram.Bags (program : DispatchProgram) (rowBytes : Int) :
    Option Chunk → Int → Int → Prop
  | none, first, last => first = 0 ∧ last = program.pooledBags
  | some chunk, first, last =>
      chunk.Complete program.pooledBags rowBytes ∧ chunk.validBegin = first ∧ chunk.validEnd = last

/-- Every call for all stages has a result; it is refused where its chunk does not have complete
    bags, reports an index outside its table exactly where one of its bags has it, and writes the
    sums elsewhere. -/
def DispatchProgram.RunsBags (program : DispatchProgram) (narrow : Bool) : Prop :=
  ∀ chunk add contents memory,
    (∃ result, ExecutesBags program 0 program.stages.length chunk add contents memory result) ∧
    ∀ result, ExecutesBags program 0 program.stages.length chunk add contents memory result →
      (∃ first last, program.Bags (program.pooledRowBytes narrow) chunk first last ∧
        ((¬ program.Inside first last ∧ result = .error bagOutside) ∨
          (program.Inside first last ∧ ∃ written, result = .ok written ∧
            program.Summed narrow add contents first last memory written))) ∨
      ((∀ first last, ¬ program.Bags (program.pooledRowBytes narrow) chunk first last) ∧
        ∃ message, result = .error ⟨.invalidChunk, message⟩)

namespace DispatchProgram.Pools

variable {program : DispatchProgram} {narrow : Bool} {add : Nat → Nat → Nat}
  {contents : Nat → Memory Nat} {first last : Int} (h : program.Pools narrow)

theorem mem_workCells {lo hi : Int} {write : CellWrite} :
    write ∈ workCells program narrow add contents first lo hi ↔
      ∃ (t : Nat) (table : PooledTable) (b d : Int), program.pooledTables[t]? = some table ∧
        (lo ≤ b ∧ b < hi) ∧ (0 ≤ d ∧ d < program.pooledDim) ∧
        write = ⟨(b - first) * (program.pooledTables.length * program.pooledDim) +
            t * program.pooledDim + d,
          storeSum narrow (bagSum add (contents t) program.pooledDim
            (table.bag program.pooledBags b) d 0)⟩ := by
  simp only [workCells, summedCells, List.mem_flatMap, List.mem_map, mem_intRange, Prod.exists,
    List.mk_mem_zipIdx_iff_getElem?]
  constructor
  · rintro ⟨table, t, htable, b, hb, d, hd, rfl⟩
    exact ⟨t, table, b, d, htable, hb, hd, rfl⟩
  · rintro ⟨t, table, b, d, htable, hb, hd, rfl⟩
    exact ⟨table, t, htable, b, hb, d, hd, rfl⟩

include h

/-- Every cell of the sums is of one bag, one table and one column. -/
theorem cell_inj {b b' d d' : Int} {t t' : Nat} (ht : t < program.pooledTables.length)
    (ht' : t' < program.pooledTables.length) (hd : 0 ≤ d ∧ d < program.pooledDim)
    (hd' : 0 ≤ d' ∧ d' < program.pooledDim)
    (heq : b * (program.pooledTables.length * program.pooledDim) + t * program.pooledDim + d =
      b' * (program.pooledTables.length * program.pooledDim) + t' * program.pooledDim + d') :
    b = b' ∧ t = t' ∧ d = d' := by
  have hcolumn : ∀ (t : Nat) (d : Int), t < program.pooledTables.length →
      0 ≤ d ∧ d < program.pooledDim → 0 ≤ t * program.pooledDim + d ∧
        t * program.pooledDim + d < program.pooledTables.length * program.pooledDim := by
    intro t d ht hd
    have hdim := h.dim.1
    have hlow := mul_nonneg (Int.natCast_nonneg t) (show 0 ≤ program.pooledDim by omega)
    have hhigh := mul_le_mul_of_nonneg_right
      (show (t : Int) + 1 ≤ program.pooledTables.length by omega)
      (show 0 ≤ program.pooledDim by omega)
    rw [add_mul, one_mul] at hhigh
    omega
  rw [add_assoc, add_assoc] at heq
  obtain ⟨hb, hinner⟩ := Ready.cell_inj (hcolumn t d ht hd) (hcolumn t' d' ht' hd') heq
  obtain ⟨htables, hdim⟩ := Ready.cell_inj hd hd' hinner
  exact ⟨hb, by exact_mod_cast htables, hdim⟩

/-- The cells of all bags of a window. -/
theorem summed_workCells (memory : Memory Nat) {cells : List CellWrite}
    (hcells : ∀ write, write ∈ cells ↔
      write ∈ workCells program narrow add contents first first last) :
    program.Summed narrow add contents first last memory (run cells memory) := by
  constructor
  · intro b t table d hb htable hd
    rw [run_apply]
    cases hcase : Writes.last cells ((b - first) *
        (program.pooledTables.length * program.pooledDim) + t * program.pooledDim + d) with
    | none =>
        exact absurd rfl (last_eq_none.mp hcase _ ((hcells _).mpr (mem_workCells.mpr
          ⟨t, table, b, d, htable, hb, hd, rfl⟩)))
    | some value =>
        obtain ⟨write, hwrite, hcell, rfl⟩ := exists_of_last hcase
        obtain ⟨t', table', b', d', htable', hb', hd', rfl⟩ :=
          mem_workCells.mp ((hcells _).mp hwrite)
        obtain ⟨hlt, -⟩ := List.getElem?_eq_some_iff.mp htable
        obtain ⟨hlt', -⟩ := List.getElem?_eq_some_iff.mp htable'
        obtain ⟨hbags, rfl, rfl⟩ := h.cell_inj hlt' hlt hd' hd hcell
        obtain rfl : b' = b := by omega
        obtain rfl : table' = table := Option.some.inj (htable'.symm.trans htable)
        rfl
  · intro cell hcell
    rw [run_apply, last_eq_none.mpr, Option.getD_none]
    intro write hwrite heq
    obtain ⟨t, table, b, d, htable, hb, hd, rfl⟩ := mem_workCells.mp ((hcells _).mp hwrite)
    obtain ⟨hlt, -⟩ := List.getElem?_eq_some_iff.mp htable
    have hdim := h.dim.1
    have hlow := mul_nonneg (Int.natCast_nonneg t) (show 0 ≤ program.pooledDim by omega)
    have hhigh := mul_le_mul_of_nonneg_right
      (show (t : Int) + 1 ≤ program.pooledTables.length by omega)
      (show 0 ≤ program.pooledDim by omega)
    rw [add_mul, one_mul] at hhigh
    have hrow := h.rowElements_pos
    have hbase := mul_nonneg (show 0 ≤ b - first by omega)
      (show 0 ≤ program.pooledTables.length * program.pooledDim by omega)
    have hnext := mul_le_mul_of_nonneg_right (show b - first + 1 ≤ last - first by omega)
      (show 0 ≤ program.pooledTables.length * program.pooledDim by omega)
    rw [add_mul, one_mul] at hnext
    dsimp only at heq
    exact hcell ⟨by omega, by omega⟩

/-- Workers on consecutive ranges of bags. -/
theorem finishes_bags (hfirst : 0 ≤ first) (hlast : last ≤ program.pooledBags) {memory : Memory Nat}
    {parts : List (Int × Int)} (hparts : Partition first parts last)
    {result : Outcome ExecutionError (Memory Nat)}
    (hresult : Finishes (parts.map fun part =>
      (program.pooledCall narrow first last).work add contents part.1 part.2) memory result) :
    (¬ program.Inside first last ∧ result = .error bagOutside) ∨
      (program.Inside first last ∧ ∃ written, result = .ok written ∧
        program.Summed narrow add contents first last memory written) := by
  have hwork : ∀ part ∈ parts, ((program.pooledCall narrow first last).work add contents
      part.1 part.2).Guards (program.Inside part.1 part.2) bagOutside
        (workCells program narrow add contents first part.1 part.2) := by
    intro part hmem
    obtain ⟨hlo, hlt, hhi⟩ := hparts.bounds hmem
    exact h.work_guards hfirst hlo hlt (hhi.trans hlast)
  have hinside : program.Inside first last ↔ ∀ part ∈ parts, program.Inside part.1 part.2 := by
    constructor
    · intro hall part hmem table htable b hb
      obtain ⟨hlo, -, hhi⟩ := hparts.bounds hmem
      exact hall table htable b ⟨by omega, by omega⟩
    · intro hall table htable b hb
      obtain ⟨part, hmem, hrange⟩ := hparts.exists_mem hb
      exact hall part hmem table htable b hrange
  cases hresult with
  | written lists history hlists hinterleaves =>
      have hall : ∀ part ∈ parts, program.Inside part.1 part.2 := by
        intro part hmem
        by_contra hnot
        have hrun := (hwork part hmem).2 hnot
        have hlist := List.mem_map_of_mem (f := fun part : Int × Int =>
          (program.pooledCall narrow first last).work add contents part.1 part.2) hmem
        rw [hlists, hrun] at hlist
        obtain ⟨_, -, heq⟩ := List.mem_map.mp hlist
        cases heq
      have hruns : (parts.map fun part =>
          (program.pooledCall narrow first last).work add contents part.1 part.2) =
            (parts.map fun part => workCells program narrow add contents first part.1 part.2).map
              .ok := by
        rw [List.map_map]
        exact List.map_congr_left fun part hmem => (hwork part hmem).1 (hall part hmem)
      rw [hruns] at hlists
      obtain rfl := List.map_injective_iff.mpr (fun _ _ => Outcome.ok.inj) hlists
      refine .inr ⟨hinside.mpr hall, _, rfl, ?_⟩
      have hapart : Apart (parts.map fun part =>
          workCells program narrow add contents first part.1 part.2) := by
        rw [Apart, List.pairwise_map]
        refine hparts.pairwise.imp fun hle x hx y hy heq => ?_
        obtain ⟨t, _, b, d, htable, hb, hd, rfl⟩ := mem_workCells.mp hx
        obtain ⟨t', _, b', d', htable', hb', hd', rfl⟩ := mem_workCells.mp hy
        obtain ⟨hlt, -⟩ := List.getElem?_eq_some_iff.mp htable
        obtain ⟨hlt', -⟩ := List.getElem?_eq_some_iff.mp htable'
        have hsame := (h.cell_inj hlt hlt' hd hd' heq).1
        omega
      rw [run_interleaved hinterleaves hapart]
      refine h.summed_workCells memory fun write => ?_
      rw [List.mem_flatten, mem_workCells]
      constructor
      · rintro ⟨_, hlist, hmem⟩
        obtain ⟨part, hpart, rfl⟩ := List.mem_map.mp hlist
        obtain ⟨t, table, b, d, htable, hb, hd, rfl⟩ := mem_workCells.mp hmem
        obtain ⟨hlo, -, hhi⟩ := hparts.bounds hpart
        exact ⟨t, table, b, d, htable, ⟨by omega, by omega⟩, hd, rfl⟩
      · rintro ⟨t, table, b, d, htable, hb, hd, rfl⟩
        obtain ⟨part, hpart, hrange⟩ := hparts.exists_mem hb
        exact ⟨_, List.mem_map.mpr ⟨part, hpart, rfl⟩,
          mem_workCells.mpr ⟨t, table, b, d, htable, hrange, hd, rfl⟩⟩
  | failed reason hmem =>
      obtain ⟨part, hpart, hrun⟩ := List.mem_map.mp hmem
      by_cases hin : program.Inside part.1 part.2
      · rw [(hwork part hpart).1 hin] at hrun
        cases hrun
      · rw [(hwork part hpart).2 hin] at hrun
        cases hrun
        exact .inl ⟨fun hall => hin (hinside.mp hall part hpart), rfl⟩
  | faulted kind hmem =>
      obtain ⟨part, hpart, hrun⟩ := List.mem_map.mp hmem
      by_cases hin : program.Inside part.1 part.2
      · rw [(hwork part hpart).1 hin] at hrun
        cases hrun
      · rw [(hwork part hpart).2 hin] at hrun
        cases hrun

theorem bagWindow_cases (chunk : Option Chunk) :
    (∃ first last, program.bagWindow (program.pooledRowBytes narrow) chunk = .ok (first, last) ∧
        program.Bags (program.pooledRowBytes narrow) chunk first last ∧
        0 ≤ first ∧ first < last ∧ last ≤ program.pooledBags) ∨
      ((∀ first last, ¬ program.Bags (program.pooledRowBytes narrow) chunk first last) ∧
        ∃ message, program.bagWindow (program.pooledRowBytes narrow) chunk =
          .error ⟨.invalidChunk, message⟩) := by
  have hbags := h.bags
  have hrow : 1 ≤ program.pooledRowBytes narrow :=
    one_le_mul_of_one_le_of_one_le h.rowElements_pos (width_bounds narrow).1
  cases chunk with
  | none => exact .inl ⟨0, _, rfl, ⟨rfl, rfl⟩, le_refl 0, by omega, le_refl _⟩
  | some chunk =>
      have hcount := le_mul_of_one_le_right (show 0 ≤ program.pooledBags by omega) hrow
      rcases completeWindow_cases ⟨.invalidChunk, "pooled chunk must contain complete bags"⟩
          (h.fits_rows (le_refl _) (by omega) hcount) (by omega)
          (h.fits_rows (le_refl _) (by omega) (le_refl _)) chunk with
        ⟨hcomplete, hwindow⟩ | ⟨hnot, hwindow⟩
      · exact .inl ⟨_, _, hwindow, ⟨hcomplete, rfl, rfl⟩, hcomplete.1⟩
      · exact .inr ⟨fun _ _ hrows => hnot hrows.1, _, hwindow⟩

theorem widthAt_eq : program.widthAt program.stages.length = .ok (pooledWidth narrow) := by
  rw [h.stages]
  cases narrow with
  | false =>
      show Outcome.ok (byteWidth program.plan.sourceType) = _
      rw [h.sourceType]
      rfl
  | true =>
      show (do
        let type ← program.typeAt 1
        pure (byteWidth type)) = _
      unfold Program.typeAt
      rw [h.stages]
      rfl

/-- A call for all stages: the window, then the floor. -/
theorem bagsPrologue_eq (chunk : Option Chunk) :
    bagsPrologue program 0 program.stages.length chunk =
      program.bagWindow (program.pooledRowBytes narrow) chunk >>= fun window =>
        (exact64 (program.pooledRowBytes narrow * 3) >>= fun unitBytes =>
          workerFloor unitBytes kMinTypedBytesPerWorker) >>= fun _ =>
            .ok (program.pooledCall narrow window.1 window.2) := by
  have hstages : (require (0 ≤ program.stages.length ∧
      program.stages.length ≤ program.stages.length) ⟨.invalidBoundary, "stage range [" ++
        toString 0 ++ ", " ++ toString program.stages.length ++ ") is not inside the program"⟩ :
          Outcome ExecutionError Unit) = .ok () := require_eq_ok.mpr ⟨Nat.zero_le _, le_refl _⟩
  have hnarrow : decide (program.stages.length = 1 ∧ ∀ stage ∈ program.stages.head?,
      isFloatWidth stage.input 32 ∧ isFloatWidth stage.output 16) = narrow := by
    rw [h.stages]
    cases narrow <;> decide
  have hsupported : ¬ (1 < program.stages.length ∨ program.stages.length = 1 ∧ narrow = false) := by
    rw [h.stages]
    cases narrow <;> decide
  have hbags := h.bags
  have hwidth := width_bounds narrow
  have hrow := h.rowElements_pos
  have hbytes : 1 ≤ program.pooledRowBytes narrow :=
    one_le_mul_of_one_le_of_one_le hrow hwidth.1
  have helements : program.pooledTables.length * program.pooledDim ≤
      program.pooledRowBytes narrow := le_mul_of_one_le_right (by omega) hwidth.1
  have hfits : FitsI64 (program.pooledTables.length * program.pooledDim * pooledWidth narrow) :=
    h.fits_rows hbags (show 0 ≤ program.pooledRowBytes narrow by omega) (one_mul _).ge
  unfold bagsPrologue
  dsimp only
  rw [hstages, ok_bind, require, if_pos ⟨rfl, rfl⟩, ok_bind, h.widthAt_eq, ok_bind, hnarrow,
    require,
    if_pos hsupported, ok_bind, mul64,
    exact64_of_fits (h.fits_rows hbags (by omega) (by omega)), ok_bind, mul64,
    exact64_of_fits hfits, ok_bind]
  change program.bagWindow (program.pooledRowBytes narrow) chunk >>= _ = _
  congr 1
  funext window
  rw [bind_assoc]
  rfl

/-- The calls behave when the least share of a worker can be computed. -/
theorem runsBags_iff :
    program.RunsBags narrow ↔ program.pooledRowBytes narrow * 3 + 2 ^ 16 < 2 ^ 63 := by
  have hbytes : 1 ≤ program.pooledRowBytes narrow :=
    one_le_mul_of_one_le_of_one_le h.rowElements_pos (width_bounds narrow).1
  have hfloor := workerFloor_cases (ε := ExecutionError)
    (show 0 ≤ program.pooledRowBytes narrow * 3 by omega)
  constructor
  · intro hruns
    by_contra hover
    obtain ⟨kind, hfault⟩ := hfloor.2 hover
    have hresult : ExecutesBags program 0 program.stages.length none (fun x _ => x)
        (fun _ _ => 0) (fun _ => 0) (.fault kind) := by
      unfold ExecutesBags
      rw [h.bagsPrologue_eq, hfault]
      rfl
    rcases (hruns none _ _ _).2 _ hresult with ⟨_, _, -, ⟨-, herror⟩ | ⟨-, _, hok, -⟩⟩ |
      ⟨-, _, herror⟩
    · cases herror
    · cases hok
    · cases herror
  · intro hfits chunk add contents memory
    obtain ⟨floor, hok⟩ := hfloor.1 hfits
    unfold ExecutesBags
    rw [h.bagsPrologue_eq, hok]
    rcases h.bagWindow_cases chunk with ⟨first, last, hwindow, hbags, hlo, hlt, hhi⟩ |
        ⟨hnone, message, hwindow⟩
    · rw [hwindow, ok_bind, ok_bind]
      constructor
      · obtain ⟨result, hresult⟩ := exists_finishes ([(first, last)].map fun part =>
          (program.pooledCall narrow first last).work add contents part.1 part.2) (le_refl 1) memory
        exact ⟨result, [(first, last)], ⟨rfl, hlt, rfl⟩, hresult⟩
      · rintro result ⟨parts, hparts, hfinishes⟩
        exact .inl ⟨first, last, hbags, h.finishes_bags hlo hhi hparts hfinishes⟩
    · rw [hwindow]
      exact ⟨⟨_, rfl⟩, fun result hresult => .inr ⟨hnone, message, hresult⟩⟩

end DispatchProgram.Pools

/-! ### Accepted runs -/

/-- A run that reports no error. -/
def Outcome.Accepts {ε α : Type} (run : Outcome ε α) : Prop := ∀ reason, run ≠ .error reason

section Accepts

variable {ε α β : Type} {next : α → Outcome ε β}

theorem accepts_require {c : Prop} [Decidable c] {reason : ε} {next : Unit → Outcome ε β} :
    (require c reason >>= next).Accepts ↔ c ∧ (next ()).Accepts := by
  unfold require
  split
  · rename_i hc
    exact ⟨fun h => ⟨hc, h⟩, fun h => h.2⟩
  · rename_i hc
    exact ⟨fun h => absurd rfl (h reason), fun h => absurd h.1 hc⟩

theorem accepts_checkedOr {value : Int} {reason : ε} {next : Int → Outcome ε β} :
    (checkedOr value reason >>= next).Accepts ↔ FitsI64 value ∧ (next value).Accepts := by
  unfold checkedOr checked64
  by_cases hfits : FitsI64 value
  · rw [if_pos hfits]
    exact ⟨fun h => ⟨hfits, h⟩, fun h => h.2⟩
  · rw [if_neg hfits]
    exact ⟨fun h => absurd rfl (h reason), fun h => absurd h.1 hfits⟩

theorem accepts_bind {run : Outcome ε α} : (run >>= next).Accepts ↔
    run.Accepts ∧ ∀ value, run = .ok value → (next value).Accepts := by
  cases run with
  | ok value =>
      constructor
      · intro h
        refine ⟨fun reason => by simp, fun _ heq => ?_⟩
        cases heq
        exact h
      · exact fun h => h.2 value rfl
  | error reason => exact ⟨fun h => absurd rfl (h reason), fun h => absurd rfl (h.1 reason)⟩
  | fault kind =>
      refine ⟨fun _ => ⟨fun reason => by simp, fun _ heq => by cases heq⟩, fun _ reason => ?_⟩
      simp

/-- A run that satisfies a promise and reports no error has a value. -/
theorem Outcome.Sat.exists_ok {run : Outcome ε α} {post : α → Prop} (h : run.Sat post)
    (haccepts : run.Accepts) : ∃ value, run = .ok value ∧ post value := by
  cases run with
  | ok value => exact ⟨value, rfl, h⟩
  | error reason => exact absurd rfl (haccepts reason)
  | fault kind => exact h.elim

end Accepts

/-! ### Accepted tables -/

/-- A table of the program: rows of a host view, an index array and offsets that cut it. -/
structure PooledTable.Reads (table : PooledTable) (bags dim : Int) (view : BufferView)
    (index offset : PooledOperand) : Prop where
  rows : table.rows = view.base + view.offsetBytes
  indices : table.indices = index
  offsets : table.offsets = offset
  host : view.kind = .host
  positive : 1 ≤ table.rowCount
  inside : view.offsetBytes + table.rowCount * (dim * 4) ≤ view.capacityBytes
  cut : table.Cut bags

/-- The checks of the offsets from entry `b` on. -/
theorem sat_checkOffsets {offset : PooledOperand} {indexCount : Int} (b n : Nat)
    (hle : b + n ≤ offset.values.length) (previous : Int) :
    (checkOffsets offset indexCount (List.range' b n) previous).Sat fun _ =>
      (0 < n → previous ≤ offset.values.getD b 0) ∧
      (∀ i : Nat, b ≤ i → i < b + n → offset.values.getD i 0 ≤ indexCount ∧
        (i = 0 → offset.values.getD i 0 = 0)) ∧
      ∀ i : Nat, b ≤ i → i + 1 < b + n →
        offset.values.getD i 0 ≤ offset.values.getD (i + 1) 0 := by
  induction n generalizing b previous with
  | zero =>
      refine ⟨fun hpos => absurd hpos (lt_irrefl _), fun i hi hlt => ?_, fun i hi hlt => ?_⟩
      · omega
      · omega
  | succ n ih =>
      rw [List.range'_succ, checkOffsets, fetch_of_lt (by omega), ok_bind, sat_require_bind]
      rintro ⟨hprevious, hcount, hzero⟩
      have hvalue : offset.values.getD b 0 = offset.values[b] :=
        List.getD_eq_getElem _ _ (by omega)
      refine (ih (b + 1) (by omega) _).mono fun _ hrest => ?_
      obtain ⟨hnext, hall, hstep⟩ := hrest
      refine ⟨fun _ => hvalue ▸ hprevious, fun i hi hlt => ?_, fun i hi hlt => ?_⟩
      · rcases Nat.eq_or_lt_of_le hi with rfl | hgt
        · rw [hvalue]
          exact ⟨hcount, hzero⟩
        · exact hall i hgt (by omega)
      · rcases Nat.eq_or_lt_of_le hi with rfl | hgt
        · rw [hvalue]
          exact hnext (by omega)
        · exact hstep i hgt (by omega)

/-- An allocation of the caller is smaller than `PTRDIFF_MAX`. -/
structure BufferView.Placed (view : BufferView) : Prop extends view.Machine where
  sized : view.capacityBytes < 2 ^ 63

section Prepare

variable {bags dim : Int}

theorem sat_preparePooledTable {view : BufferView} {index offset : PooledOperand}
    (hbags : 1 ≤ bags) (hview : view.Placed) (hrank : view.extents.length = view.strides.length)
    (hindex : index.Held) (hoffset : offset.Held) :
    (preparePooledTable bags dim view index offset).Sat fun table =>
      table.Reads bags dim view index offset := by
  unfold preparePooledTable
  refine sat_require_bind.mpr fun hshape => ?_
  obtain ⟨hhost, hsize, htwo, hdim, hrows⟩ := hshape
  rw [sat_bind]
  refine (sat_isDense hrank).mono fun dense hreach => sat_require_bind.mpr fun hdense => ?_
  obtain ⟨rowCount, hextents⟩ : ∃ rowCount, view.extents = [rowCount, dim] := by
    match hcase : view.extents, htwo with
    | [rows, columns], _ =>
        rw [hcase] at hdim
        simp only [List.getElem?_cons_succ, List.getElem?_cons_zero, Option.some.injEq] at hdim
        exact ⟨rows, by rw [hdim]⟩
  have hfetch : (fetch view.extents 0 : Outcome TransferError Int) = .ok rowCount := by
    rw [hextents]
    rfl
  have hpositive : 0 < rowCount := hrows rowCount (by rw [hextents]; rfl)
  rw [hfetch, ok_bind, sat_bind]
  refine (sat_viewSpanBytes hview.extents _).mono fun span hspan => ?_
  refine sat_require_bind.mpr fun hcounts => ?_
  obtain ⟨hindexCount, hoffsetCount, -, -⟩ := hcounts
  have hlength := hoffset.length
  rw [sat_bind, List.range_eq_range']
  refine (sat_checkOffsets 0 bags.toNat (by omega) 0).mono fun _ hchecked => ?_
  obtain ⟨-, hall, hstep⟩ := hchecked
  have hinside := hspan.inside
  have hbytes := hspan.dense (hreach hdense)
  rw [hextents, hsize, List.prod_cons, List.prod_cons, List.prod_nil, mul_one, mul_assoc] at hbytes
  have hcast : ((view.offsetBytes + span : Nat) : Int) ≤ view.capacityBytes := by
    exact_mod_cast hinside
  rw [Nat.cast_add, hbytes] at hcast
  refine ⟨rfl, rfl, rfl, hhost, hpositive, hcast, ⟨hindex, hoffset, hoffsetCount, ?_, ?_⟩⟩
  · rw [PooledTable.cut, if_pos (by omega)]
    exact (hall 0 (le_refl _) (by omega)).2 rfl
  · intro b hb hlt
    have hb' : (b + 1).toNat = b.toNat + 1 := by omega
    rw [PooledTable.cut, if_pos hlt, PooledTable.cut]
    split
    · rw [hb']
      exact hstep b.toNat (Nat.zero_le _) (by omega)
    · exact (hall b.toNat (Nat.zero_le _) (by omega)).1

theorem sat_preparePooledTables (hbags : 1 ≤ bags) {views : List BufferView}
    {indices offsets : List PooledOperand} (hindices : views.length = indices.length)
    (hoffsets : views.length = offsets.length) (hviews : ∀ view ∈ views, view.Placed)
    (hranks : ∀ view ∈ views, view.extents.length = view.strides.length)
    (hheld : ∀ operand ∈ indices ++ offsets, operand.Held) :
    (preparePooledTables bags dim views indices offsets).Sat fun tables =>
      tables.length = views.length ∧ ∀ (t : Nat) table, tables[t]? = some table →
        ∃ view index offset, views[t]? = some view ∧ indices[t]? = some index ∧
          offsets[t]? = some offset ∧ table.Reads bags dim view index offset := by
  induction views generalizing indices offsets with
  | nil =>
      cases indices with
      | nil => exact ⟨rfl, fun t table htable => by simp at htable⟩
      | cons _ _ => simp at hindices
  | cons view views ih =>
      cases indices with
      | nil => simp at hindices
      | cons index indices =>
          cases offsets with
          | nil => simp at hoffsets
          | cons offset offsets =>
              rw [List.forall_mem_cons] at hviews hranks
              rw [preparePooledTables, sat_bind]
              refine (sat_preparePooledTable hbags hviews.1 hranks.1 (hheld index (by simp))
                (hheld offset (by simp))).mono fun table htable => ?_
              rw [sat_bind]
              refine (ih (Nat.succ.inj hindices) (Nat.succ.inj hoffsets) hviews.2 hranks.2
                fun operand hmem => hheld operand ?_).mono fun tables htables => ?_
              · rw [List.mem_append] at hmem
                rcases hmem with hmem | hmem
                · simp [hmem]
                · simp [hmem]
              · refine ⟨congrArg (· + 1) htables.1, fun t other hother => ?_⟩
                cases t with
                | zero =>
                    obtain rfl : table = other := Option.some.inj hother
                    exact ⟨view, index, offset, rfl, rfl, rfl, htable⟩
                | succ t => exact htables.2 t other hother

/-- What a prepared program has of its operands. -/
structure DispatchProgram.PoolsFrom (program : DispatchProgram) (views : List BufferView)
    (indices offsets : List PooledOperand) (bags dim : Int) (narrow : Bool) : Prop where
  pooledBags : program.pooledBags = bags
  pooledDim : program.pooledDim = dim
  count : program.pooledTables.length = views.length
  tables : ∀ (t : Nat) table, program.pooledTables[t]? = some table →
    ∃ view index offset, views[t]? = some view ∧ indices[t]? = some index ∧
      offsets[t]? = some offset ∧ table.Reads bags dim view index offset
  plan : program.plan = pooledPlan views.length bags dim (views.length * dim)
    (views.length * dim * bags) narrow
  stages : program.stages = if narrow then [narrowArithmetic] else []

variable {views : List BufferView} {indices offsets : List PooledOperand} {narrow : Bool}

/-- A program comes of views with a stride for every extent. -/
theorem rank_of_preparePooledTable {view : BufferView} {index offset : PooledOperand}
    {table : PooledTable} (hview : view.Placed)
    (h : preparePooledTable bags dim view index offset = .ok table) :
    view.extents.length = view.strides.length := by
  simp only [preparePooledTable, bind_ok_iff, exists_unit] at h
  obtain ⟨-, _, -, -, _, -, _, hspan, -⟩ := h
  exact ((sat_viewSpanBytes hview.extents _).of_ok hspan).rank

theorem ranks_of_preparePooledTables (hindices : views.length = indices.length)
    (hoffsets : views.length = offsets.length) (hviews : ∀ view ∈ views, view.Placed)
    {tables : List PooledTable}
    (h : preparePooledTables bags dim views indices offsets = .ok tables) :
    ∀ view ∈ views, view.extents.length = view.strides.length := by
  induction views generalizing indices offsets tables with
  | nil => exact fun view hmem => absurd hmem List.not_mem_nil
  | cons view views ih =>
      cases indices with
      | nil => simp at hindices
      | cons index indices =>
          cases offsets with
          | nil => simp at hoffsets
          | cons offset offsets =>
              rw [List.forall_mem_cons] at hviews ⊢
              simp only [preparePooledTables, bind_ok_iff] at h
              obtain ⟨table, htable, rest, hrest, -⟩ := h
              exact ⟨rank_of_preparePooledTable hviews.1 htable,
                ih (Nat.succ.inj hindices) (Nat.succ.inj hoffsets) hviews.2 hrest⟩

theorem ranks_of_preparePooledBags (hviews : ∀ view ∈ views, view.Placed)
    {program : DispatchProgram}
    (h : preparePooledBags views indices offsets bags dim narrow = .ok program) :
    ∀ view ∈ views, view.extents.length = view.strides.length := by
  simp only [preparePooledBags, bind_ok_iff, exists_unit] at h
  obtain ⟨hcounts, -, _, -, _, -, tables, htables, -⟩ := h
  obtain ⟨-, hindices, hoffsets⟩ := require_eq_ok.mp hcounts
  exact ranks_of_preparePooledTables hindices hoffsets hviews htables

/-- An accepted program is complete but for the bytes of its sums. -/
theorem preparePooledBags_eq (hviews : ∀ view ∈ views, view.Placed)
    (hranks : ∀ view ∈ views, view.extents.length = view.strides.length)
    (hheld : ∀ operand ∈ indices ++ offsets, operand.Held)
    (haccepts : (preparePooledBags views indices offsets bags dim narrow).Accepts) :
    (views ≠ [] ∧ 1 ≤ bags ∧ 1 ≤ dim ∧ dim ≤ 1024) ∧
      ∃ program : DispatchProgram, program.PoolsFrom views indices offsets bags dim narrow ∧
        preparePooledBags views indices offsets bags dim narrow =
          (mul64 (views.length * dim * bags) 4 >>= fun _ => .ok program) := by
  unfold preparePooledBags at haccepts ⊢
  obtain ⟨hcounts, haccepts⟩ := accepts_require.mp haccepts
  obtain ⟨hsizes, haccepts⟩ := accepts_require.mp haccepts
  obtain ⟨hrow, haccepts⟩ := accepts_checkedOr.mp haccepts
  obtain ⟨htotal, haccepts⟩ := accepts_checkedOr.mp haccepts
  have hbags : 1 ≤ bags := hsizes.1
  obtain ⟨tables, hrun, hcount, htables⟩ := (sat_preparePooledTables hbags hcounts.2.1 hcounts.2.2
    hviews hranks hheld).exists_ok (accepts_bind.mp haccepts).1
  refine ⟨⟨hcounts.1, hbags, hsizes.2.1, hsizes.2.2⟩, ?_⟩
  rw [require, if_pos hcounts, ok_bind, require, if_pos hsizes, ok_bind]
  dsimp only
  rw [checkedOr, checked64, if_pos hrow]
  dsimp only
  rw [ok_bind, checkedOr, checked64, if_pos htotal]
  dsimp only
  rw [ok_bind, hrun, ok_bind]
  exact ⟨_, ⟨rfl, rfl, hcount, htables, rfl, rfl⟩, rfl⟩

end Prepare

namespace DispatchProgram.PoolsFrom

variable {program : DispatchProgram} {views : List BufferView}
  {indices offsets : List PooledOperand} {bags dim : Int} {narrow : Bool}

/-- A prepared program whose sums have a number of bytes can run. -/
theorem pools (h : program.PoolsFrom views indices offsets bags dim narrow)
    (hviews : ∀ view ∈ views, view.Placed)
    (hsizes : views ≠ [] ∧ 1 ≤ bags ∧ 1 ≤ dim ∧ dim ≤ 1024)
    (htotal : FitsI64 (views.length * dim * bags * 4)) : program.Pools narrow := by
  have hlength := List.length_pos_iff.mpr hsizes.1
  constructor
  · exact h.stages
  · rw [h.plan]
    rfl
  · rw [← List.length_pos_iff, h.count]
    exact hlength
  · rw [h.pooledBags]
    exact hsizes.2.1
  · rw [h.pooledDim]
    exact hsizes.2.2
  · intro table hmem
    obtain ⟨t, ht, rfl⟩ := List.getElem_of_mem hmem
    obtain ⟨view, index, offset, hview, -, -, hreads⟩ :=
      h.tables t _ (List.getElem?_eq_getElem ht)
    have hsized := (hviews view (List.mem_of_getElem? hview)).sized
    have hinside := hreads.inside
    have hbytes := mul_nonneg (show 0 ≤ program.pooledTables[t].rowCount by
      have := hreads.positive; omega) (show 0 ≤ dim * 4 by omega)
    rw [h.pooledBags, h.pooledDim]
    refine ⟨hreads.cut, ?_⟩
    unfold FitsI64
    omega
  · rw [h.count, h.pooledDim, h.pooledBags]
    exact htotal

/-- The planned chunks of the sums are windows of complete bags that tile the result. -/
theorem planned (h : program.PoolsFrom views indices offsets bags dim narrow)
    (hpools : program.Pools narrow) {nBuffers : Int} (hbuffers : nBuffers < 2 ^ 31)
    (chunkSizeOverride : Nat) :
    (planChunks program.plan.layout nBuffers chunkSizeOverride :
      Outcome ExecutionError ChunkSchedule).Sat fun schedule =>
        Tiles 0 schedule.chunks program.plan.destinationBytes ∧
        ∀ chunk ∈ schedule.chunks, ∃ first last,
          program.Bags (program.pooledRowBytes narrow) (some chunk) first last := by
  have hbags := hpools.bags
  have hrow := hpools.rowElements_pos
  have hwidth := Pools.width_bounds narrow
  have hbytes : 1 ≤ program.pooledRowBytes narrow := one_le_mul_of_one_le_of_one_le hrow hwidth.1
  have hfits := hpools.fits_rows (le_refl _)
    (mul_nonneg (show 0 ≤ program.pooledBags by omega)
      (show 0 ≤ program.pooledRowBytes narrow by omega)) (le_refl _)
  have hlayout : program.plan.layout = selectedLayout program.pooledBags
      (program.pooledTables.length * program.pooledDim)
      (program.pooledTables.length * program.pooledDim * program.pooledBags)
      program.plan.destinationBytes (pooledWidth narrow) := by
    rw [h.plan, h.pooledBags, h.count, h.pooledDim]
    cases narrow <;> rfl
  have htotal : program.plan.destinationBytes =
      program.pooledBags * program.pooledRowBytes narrow := by
    have hdestination : program.plan.destinationBytes =
        views.length * dim * bags * pooledWidth narrow := by
      rw [h.plan]
      cases narrow <;> rfl
    rw [hdestination, DispatchProgram.pooledRowBytes, h.count, h.pooledDim, h.pooledBags]
    ring
  rw [hlayout]
  refine (sat_planChunks_selected hbags hrow (by exact_mod_cast hwidth.1) hfits hbuffers
    chunkSizeOverride _).mono fun schedule hschedule => ?_
  rw [htotal]
  exact ⟨hschedule.1, fun chunk hmem => ⟨_, _, hschedule.2 chunk hmem, rfl, rfl⟩⟩

end DispatchProgram.PoolsFrom

/-- Pooled programs end to end: where the operands are accepted, the program is of their tables,
    the bags of each table are its index array, the planned chunks are windows of complete bags
    and every call runs as `RunsBags` says, exactly when every view has as many strides as
    extents and the bytes of all sums and three times the bytes of a row, with a worker's least
    share, are 64-bit numbers. -/
theorem preparePooledBags_runsBags_iff {views : List BufferView}
    {indices offsets : List PooledOperand} {bags dim : Int} {narrow : Bool}
    (hviews : ∀ view ∈ views, view.Placed) (hheld : ∀ operand ∈ indices ++ offsets, operand.Held)
    (haccepts : (preparePooledBags views indices offsets bags dim narrow).Accepts) :
    (∃ program, preparePooledBags views indices offsets bags dim narrow = .ok program ∧
      program.PoolsFrom views indices offsets bags dim narrow ∧
      (∀ table ∈ program.pooledTables,
        (intRange 0 bags).flatMap (table.bag bags) = table.indices.values) ∧
      (∀ nBuffers, nBuffers < 2 ^ 31 → ∀ chunkSizeOverride,
        (planChunks program.plan.layout nBuffers chunkSizeOverride :
          Outcome ExecutionError ChunkSchedule).Sat fun schedule =>
            Tiles 0 schedule.chunks program.plan.destinationBytes ∧
            ∀ chunk ∈ schedule.chunks, ∃ first last,
              program.Bags (program.pooledRowBytes narrow) (some chunk) first last) ∧
      program.RunsBags narrow) ↔
    (∀ view ∈ views, view.extents.length = view.strides.length) ∧
      views.length * dim * bags * 4 < 2 ^ 63 ∧
      views.length * dim * pooledWidth narrow * 3 + 2 ^ 16 < 2 ^ 63 := by
  by_cases hranks : ∀ view ∈ views, view.extents.length = view.strides.length
  swap
  · refine iff_of_false ?_ fun h => hranks h.1
    rintro ⟨program, hok, -⟩
    exact hranks (ranks_of_preparePooledBags hviews hok)
  rw [and_iff_right hranks]
  obtain ⟨hsizes, prepared, hfrom, hrun⟩ := preparePooledBags_eq hviews hranks hheld haccepts
  have htables : (1 : Int) ≤ views.length := by
    have := List.length_pos_iff.mpr hsizes.1
    omega
  have htotal := one_le_mul_of_one_le_of_one_le
    (one_le_mul_of_one_le_of_one_le htables hsizes.2.2.1) hsizes.2.1
  have hrow : prepared.pooledRowBytes narrow = views.length * dim * pooledWidth narrow := by
    rw [DispatchProgram.pooledRowBytes, hfrom.count, hfrom.pooledDim]
  rw [hrun]
  constructor
  · rintro ⟨program, hok, -, -, -, hruns⟩
    obtain ⟨total, hmul, heq⟩ := bind_ok_iff.mp hok
    cases heq
    have hfits := (mul64_eq_ok.mp hmul).1
    have hbound := (hfrom.pools hviews hsizes hfits).runsBags_iff.mp hruns
    rw [hrow] at hbound
    refine ⟨?_, hbound⟩
    unfold FitsI64 at hfits
    omega
  · rintro ⟨hbytes, hbound⟩
    have hfits : FitsI64 (views.length * dim * bags * 4) := by
      unfold FitsI64
      omega
    have hpools := hfrom.pools hviews hsizes hfits
    rw [mul64, exact64_of_fits hfits, ok_bind]
    refine ⟨prepared, rfl, hfrom, fun table hmem => ?_, fun nBuffers hbuffers chunkSizeOverride =>
      hfrom.planned hpools hbuffers chunkSizeOverride, ?_⟩
    · have hcut := (hpools.tables table hmem).1
      rw [hfrom.pooledBags] at hcut
      exact hcut.flatMap_bag (by omega)
    · rw [hpools.runsBags_iff, hrow]
      exact hbound

/-! ### One table, and many -/

def poolView (rows columns : Nat) : BufferView where
  base := 64
  capacityBytes := rows * columns * 4
  offsetBytes := 0
  extents := [rows, columns]
  strides := [columns, 1]
  elementSize := 4
  kind := .host
  device := -1

def poolArray (values : List Int) : PooledOperand where
  address := 64
  count := values.length
  values

theorem held_poolArray {values : List Int} (h : values.length * 8 < 2 ^ 63) :
    (poolArray values).Held := by
  refine ⟨(Int.toNat_natCast _).symm, ?_⟩
  show (values.length : Int) * 8 < 2 ^ 63
  omega

/-- The sums of an empty bag and of the rows 2, 0 and 1 of a table. -/
def pairProgram : DispatchProgram where
  plan := pooledPlan 1 2 2 2 4 false
  stages := []
  resultStrides := [2, 2, 1]
  sourceElements := 4
  resultElements := 4
  indexedSourceRows := 0
  indexedRowElements := 0
  rowIndices := []
  pooledTables := [⟨64, 3, poolArray [2, 0, 1], poolArray [0, 0]⟩]
  pooledBags := 2
  pooledDim := 2

theorem preparePooledBags_runsBags_pair :
    (preparePooledBags [poolView 3 2] [poolArray [2, 0, 1]] [poolArray [0, 0]] 2 2 false =
      .ok pairProgram) ∧ pairProgram.RunsBags false := by
  have hprepare : preparePooledBags [poolView 3 2] [poolArray [2, 0, 1]] [poolArray [0, 0]] 2 2
      false = .ok pairProgram := by
    decide +kernel
  have hview : ∀ view ∈ [poolView 3 2], view.Placed := by
    intro view hmem
    rw [List.mem_singleton] at hmem
    subst hmem
    exact ⟨⟨by decide, by decide⟩, by decide⟩
  have hheld : ∀ operand ∈ [poolArray [2, 0, 1]] ++ [poolArray [0, 0]], operand.Held := by
    intro operand hmem
    simp only [List.cons_append, List.nil_append, List.mem_cons, List.not_mem_nil, or_false] at hmem
    rcases hmem with rfl | rfl
    · exact held_poolArray (by decide)
    · exact held_poolArray (by decide)
  have haccepts : (preparePooledBags [poolView 3 2] [poolArray [2, 0, 1]] [poolArray [0, 0]] 2 2
      false).Accepts := by
    intro reason hrun
    rw [hprepare] at hrun
    cases hrun
  obtain ⟨program, hok, -, -, -, hruns⟩ :=
    (preparePooledBags_runsBags_iff hview hheld haccepts).mpr
      ⟨by decide, by decide, by decide⟩
  rw [hprepare] at hok
  cases hok
  exact ⟨hprepare, hruns⟩

theorem checkOffsets_zeros {indexCount : Int} (hcount : 0 ≤ indexCount) {m : Nat} (b n : Nat)
    (h : b + n ≤ m) :
    checkOffsets (poolArray (List.replicate m 0)) indexCount (List.range' b n) 0 = .ok () := by
  induction n generalizing b with
  | zero => rfl
  | succ n ih =>
      have hvalue : (fetch (List.replicate m (0 : Int)) b : Outcome TransferError Int) = .ok 0 := by
        rw [fetch_eq_ok, List.getElem?_replicate, if_pos (by omega)]
      rw [List.range'_succ, checkOffsets, poolArray, hvalue, ok_bind, require,
        if_pos ⟨le_refl 0, hcount, fun _ => rfl⟩, ok_bind]
      exact ih (b + 1) (by omega)

theorem preparePooledTables_replicate {bags dim : Int} {view : BufferView}
    {index offset : PooledOperand} {table : PooledTable}
    (h : preparePooledTable bags dim view index offset = .ok table) (n : Nat) :
    preparePooledTables bags dim (List.replicate n view) (List.replicate n index)
      (List.replicate n offset) = .ok (List.replicate n table) := by
  induction n with
  | zero => rfl
  | succ n ih =>
      rw [List.replicate_succ, List.replicate_succ, List.replicate_succ, preparePooledTables, h,
        ok_bind, ih, ok_bind]
      rfl

/-- `n` tables of one row of 1024 values and `m` empty bags. -/
theorem preparePooledBags_empty {n m : Nat} (hn : 1 ≤ n) (hm : 1 ≤ m)
    (hfits : FitsI64 (n * 1024 * m)) :
    preparePooledBags (List.replicate n (poolView 1 1024)) (List.replicate n (poolArray []))
        (List.replicate n (poolArray (List.replicate m 0))) m 1024 false =
      mul64 (n * 1024 * m) 4 >>= fun _ => .ok {
        plan := pooledPlan n m 1024 (n * 1024) (n * 1024 * m) false
        stages := []
        resultStrides := [n * 1024, 1024, 1]
        sourceElements := n * 1024 * m
        resultElements := n * 1024 * m
        indexedSourceRows := 0
        indexedRowElements := 0
        rowIndices := []
        pooledTables := List.replicate n ⟨64, 1, poolArray [], poolArray (List.replicate m 0)⟩
        pooledBags := m
        pooledDim := 1024 } := by
  have hspan : viewSpanBytes (poolView 1 1024) "table" = .ok 4096 := by decide +kernel
  have hdense : (poolView 1 1024).isDense = .ok true := by decide +kernel
  have hfirst : (fetch (poolView 1 1024).extents 0 : Outcome TransferError Int) = .ok 1 := rfl
  have hplaced : (poolArray (List.replicate m 0)).address ≠ 0 := (by decide : (64 : Nat) ≠ 0)
  have hcount : (poolArray (List.replicate m 0)).count = m := by
    show ((List.replicate m (0 : Int)).length : Int) = m
    rw [List.length_replicate]
  have htable : preparePooledTable m 1024 (poolView 1 1024) (poolArray [])
      (poolArray (List.replicate m 0)) = .ok ⟨64, 1, poolArray [],
        poolArray (List.replicate m 0)⟩ := by
    have hoffsets := checkOffsets_zeros (le_refl 0) 0 m (Nat.le_of_eq (Nat.zero_add m))
    unfold preparePooledTable
    dsimp only
    rw [require, if_pos (by decide), ok_bind, hdense, ok_bind, require, if_pos rfl, ok_bind]
    rw [hfirst, ok_bind, hspan, ok_bind, require, if_pos ⟨by decide, hcount, by decide, hplaced⟩,
      ok_bind, List.range_eq_range', Int.toNat_natCast]
    show (checkOffsets _ 0 (List.range' 0 m) 0 >>= _) = _
    rw [hoffsets, ok_bind]
    rfl
  have hrow : FitsI64 (n * 1024) := by
    have hle := le_mul_of_one_le_right (show (0 : Int) ≤ n * 1024 by omega)
      (show (1 : Int) ≤ m by omega)
    unfold FitsI64 at hfits ⊢
    omega
  have hviews : List.replicate n (poolView 1 1024) ≠ [] := by
    rw [← List.length_pos_iff, List.length_replicate]
    exact hn
  unfold preparePooledBags
  dsimp only
  rw [require, if_pos ⟨hviews, by simp only [List.length_replicate],
    by simp only [List.length_replicate]⟩, ok_bind, require,
    if_pos ⟨by omega, by decide, by decide⟩, ok_bind, List.length_replicate, checkedOr, checked64,
    if_pos hrow]
  dsimp only
  rw [ok_bind, checkedOr, checked64, if_pos hfits]
  dsimp only
  rw [ok_bind, preparePooledTables_replicate htable, ok_bind]
  rfl

/-- 2^26 tables and 2^25 bags pass every check, and the bytes of their sums overflow. -/
theorem preparePooledBags_wide :
    (∀ view ∈ List.replicate (2 ^ 26) (poolView 1 1024), view.Placed) ∧
      (∀ operand ∈ List.replicate (2 ^ 26) (poolArray []) ++
        List.replicate (2 ^ 26) (poolArray (List.replicate (2 ^ 25) 0)), operand.Held) ∧
      preparePooledBags (List.replicate (2 ^ 26) (poolView 1 1024))
        (List.replicate (2 ^ 26) (poolArray []))
        (List.replicate (2 ^ 26) (poolArray (List.replicate (2 ^ 25) 0))) (2 ^ 25 : Nat) 1024
          false = .fault .signedOverflow := by
  refine ⟨fun view hmem => ?_, fun operand hmem => ?_, ?_⟩
  · rw [List.eq_of_mem_replicate hmem]
    exact ⟨⟨by decide, by decide⟩, by decide⟩
  · rcases List.mem_append.mp hmem with hmem | hmem
    · rw [List.eq_of_mem_replicate hmem]
      exact held_poolArray (by decide)
    · rw [List.eq_of_mem_replicate hmem]
      refine held_poolArray ?_
      rw [List.length_replicate]
      norm_num
  · rw [preparePooledBags_empty (by norm_num) (by norm_num) (by unfold FitsI64; norm_num), mul64,
      exact64, if_neg (by unfold FitsI64; norm_num)]
    rfl

end SymReloc
