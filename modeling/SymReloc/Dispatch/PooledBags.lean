import SymReloc.Dispatch.SelectedRows

/-!
# Executing a pooled program

`executePooledBags` sums bags of rows of several tables.  The offsets of a table cut its
index array into bags, one after the other, the last of which ends with the array; result row
`b` has the sums of bag `b` of every table side by side.  Workers take consecutive ranges of
bags and go through them table by table, so that a hint may run ahead in one index array.

The addition of two values is a parameter, on the bit patterns of 32-bit floats.
-/

namespace SymReloc

open Outcome Writes Quant

/-! ### Computations behind one check -/

/-- A run that has its value where a condition holds, and reports an error elsewhere. -/
def Outcome.Guards {ε α : Type} (run : Outcome ε α) (c : Prop) (reason : ε) (value : α) : Prop :=
  (c → run = .ok value) ∧ (¬ c → run = .error reason)

section Guards

variable {ε α β : Type} {run : Outcome ε α} {c c' : Prop} {reason : ε} {value : α}

theorem guards_require [Decidable c] : (require c reason).Guards c reason () :=
  ⟨fun h => if_pos h, fun h => if_neg h⟩

theorem guards_of_ok (h : run = .ok value) : run.Guards True reason value :=
  ⟨fun _ => h, fun hnot => absurd trivial hnot⟩

theorem Outcome.Guards.iff (h : run.Guards c reason value) (hiff : c ↔ c') :
    run.Guards c' reason value :=
  ⟨fun hc => h.1 (hiff.mpr hc), fun hnot => h.2 fun hc => hnot (hiff.mp hc)⟩

theorem Outcome.Guards.bind {next : α → Outcome ε β} {value' : β} (h : run.Guards c reason value)
    (hnext : c → (next value).Guards c' reason value') :
    (run >>= next).Guards (c ∧ c') reason value' := by
  constructor
  · rintro ⟨hc, hc'⟩
    rw [h.1 hc, ok_bind, (hnext hc).1 hc']
  · intro hnot
    by_cases hc : c
    · rw [h.1 hc, ok_bind, (hnext hc).2 fun hc' => hnot ⟨hc, hc'⟩]
    · rw [h.2 hc]
      rfl

/-- `Guards.bind` when the rest only finishes the value. -/
theorem Outcome.Guards.map {next : α → Outcome ε β} {value' : β} (h : run.Guards c reason value)
    (hnext : c → next value = .ok value') : (run >>= next).Guards c reason value' :=
  (h.bind fun hc => guards_of_ok (hnext hc)).iff (and_iff_left trivial)

theorem guards_mapEach {values : List α} {body : α → Outcome ε β} {good : α → Prop} {f : α → β}
    (h : ∀ value ∈ values, (body value).Guards (good value) reason (f value)) :
    (mapEach values body).Guards (∀ value ∈ values, good value) reason (values.map f) := by
  induction values with
  | nil => exact ⟨fun _ => rfl, fun hnot => absurd (fun _ hmem => by cases hmem) hnot⟩
  | cons value rest ih =>
      rw [List.forall_mem_cons] at h
      have hrest := ih h.2
      refine (h.1.bind fun _ => hrest.map fun _ => ?_).iff List.forall_mem_cons.symm
      rfl

end Guards

/-! ### Bags -/

/-- `operand.values[k]`. -/
def PooledOperand.get {ε : Type} (operand : PooledOperand) (k : Int) : Outcome ε Int :=
  if 0 ≤ k then fetch operand.values k.toNat else .fault .outOfBounds

/-- How many indices ahead of a bag the hints run. -/
def kAhead : Int := 12

def bagOutside : ExecutionError :=
  ⟨.indexOutOfRange, "pooled bag index is outside its table"⟩

/-- The bags of a call: all, or those of a chunk of complete bags. -/
def DispatchProgram.bagWindow (program : DispatchProgram) (rowBytes : Int) :
    Option Chunk → Outcome ExecutionError (Int × Int)
  | none => .ok (0, program.pooledBags)
  | some chunk => completeWindow program.pooledBags rowBytes
      ⟨.invalidChunk, "pooled chunk must contain complete bags"⟩ chunk

/-- A checked call: the program, the width of its sums, the bytes of a result row and the bags
    `[first, last)`. -/
structure BagsCall where
  program : DispatchProgram
  narrow : Bool
  outputWidth : Nat
  rowBytes : Int
  first : Int
  last : Int
deriving DecidableEq, Repr

/-- The checks of a call; the grain of the workers is computed last. -/
def bagsPrologue (program : DispatchProgram) (fromStage toStage : Nat) (chunk : Option Chunk) :
    Outcome ExecutionError BagsCall := do
  require (fromStage ≤ toStage ∧ toStage ≤ program.stages.length)
    ⟨.invalidBoundary, "stage range [" ++ toString fromStage ++ ", " ++ toString toStage ++
      ") is not inside the program"⟩
  require (fromStage = 0 ∧ toStage = program.stages.length)
    ⟨.invalidBoundary, "pooled programs execute all host stages together"⟩
  let outputWidth ← program.widthAt program.stages.length
  let narrow := decide (program.stages.length = 1 ∧ ∀ stage ∈ program.stages.head?,
    isFloatWidth stage.input 32 ∧ isFloatWidth stage.output 16)
  require (¬ (1 < program.stages.length ∨ program.stages.length = 1 ∧ narrow = false))
    ⟨.unsupportedStage, "pooled programs support no stage or one f32 -> f16 cast"⟩
  let rowElements ← mul64 program.pooledTables.length program.pooledDim
  let rowBytes ← mul64 rowElements outputWidth
  let (first, last) ← program.bagWindow rowBytes chunk
  let unitBytes ← mul64 rowBytes 3
  let _ ← workerFloor unitBytes kMinTypedBytesPerWorker
  pure { program, narrow, outputWidth, rowBytes, first, last }

namespace BagsCall

variable (call : BagsCall) (add : Nat → Nat → Nat)

def bags : Int := call.program.pooledBags
def dim : Int := call.program.pooledDim
def tables : Int := call.program.pooledTables.length

/-- Where bag `b` begins in the index array; past the last bag, its end. -/
def boundary (table : PooledTable) (b : Int) : Outcome ExecutionError Int :=
  if b < call.bags then table.offsets.get b else .ok table.indices.count

/-- A hint for the row of index `k`, which reads the index only. -/
def touch (table : PooledTable) (rowStride streamEnd k : Int) : Outcome ExecutionError Unit :=
  if k < streamEnd then do
    let row ← table.indices.get k
    if 0 ≤ row ∧ row < table.rowCount then do
      let _ ← mul64 row rowStride
      pure ()
    else pure ()
  else pure ()

/-- A value of a table; a read outside its rows is undefined. -/
def load (table : PooledTable) (rows : Memory Nat) (cell : Int) : Outcome ExecutionError Nat :=
  if 0 ≤ cell ∧ cell < table.rowCount * call.dim then .ok (rows cell % 2 ^ 32)
  else .fault .outOfBounds

/-- `pooledBagScalar` from the sums of the indices before: `acc[d] += src[d]` for each index. -/
def pooledBag (table : PooledTable) (rows : Memory Nat) :
    List Int → List Nat → Outcome ExecutionError (List Nat)
  | [], acc => .ok acc
  | k :: rest, acc => do
      let row ← table.indices.get k
      require (0 ≤ row ∧ row < table.rowCount) bagOutside
      let base ← mul64 row call.dim
      let values ← mapEach (intRange 0 call.dim) fun d => call.load table rows (base + d)
      pooledBag table rows rest (List.zipWith add acc values)

/-- A sum as it is stored: narrowed, or copied. -/
def emit (bits : Nat) : Nat :=
  (if call.narrow = true then narrowF32F16 bits else bits) % 2 ^ (8 * call.outputWidth)

/-- The cells of bag `b` of the table at `t`. -/
def bagCells (table : PooledTable) (rows : Memory Nat) (rowStride streamEnd t b : Int) :
    Outcome ExecutionError (List CellWrite) := do
  let lo ← table.offsets.get b
  let next ← add64 b 1
  let hi ← call.boundary table next
  let _ ← mapEach (intRange lo hi) fun k => do
    let ahead ← add64 k kAhead
    touch table rowStride streamEnd ahead
  let sum ← call.pooledBag add table rows (intRange lo hi) ((intRange 0 call.dim).map fun _ => 0)
  let skipped ← sub64 b call.first
  let row ← mul64 skipped call.rowBytes
  let column ← mul64 t call.dim
  let columnBytes ← mul64 column call.outputWidth
  let _ ← add64 row columnBytes
  pure (List.zipWith (fun d bits =>
    ⟨skipped * (call.tables * call.dim) + column + d, call.emit bits⟩) (intRange 0 call.dim) sum)

/-- The bags `[first, last)` of one table. -/
def tableCells (contents : Nat → Memory Nat) (first last rowStride : Int)
    (entry : PooledTable × Nat) : Outcome ExecutionError (List CellWrite) := do
  let table := entry.1
  let streamEnd ← call.boundary table last
  let start ← table.offsets.get first
  let stop ← add64 start kAhead
  let _ ← mapEach (intRange start stop) (touch table rowStride streamEnd)
  let cells ← mapEach (intRange first last)
    (call.bagCells add table (contents entry.2) rowStride streamEnd entry.2)
  pure cells.flatten

/-- One worker's bags, table by table. -/
def work (contents : Nat → Memory Nat) (first last : Int) :
    Outcome ExecutionError (List CellWrite) := do
  let rowStride ← mul64 call.dim 4
  let cells ← mapEach call.program.pooledTables.zipIdx
    (call.tableCells add contents first last rowStride)
  pure cells.flatten

end BagsCall

/-- The results of one call of `executeHost` or `executeHostChunk` on a pooled program, for every
    division of the bags among workers; `contents t` is the storage of the table at `t`. -/
def ExecutesBags (program : DispatchProgram) (fromStage toStage : Nat) (chunk : Option Chunk)
    (add : Nat → Nat → Nat) (contents : Nat → Memory Nat) (memory : Memory Nat)
    (result : Outcome ExecutionError (Memory Nat)) : Prop :=
  match bagsPrologue program fromStage toStage chunk with
  | .error reason => result = .error reason
  | .fault kind => result = .fault kind
  | .ok call => ∃ parts, Partition call.first parts call.last ∧
      Finishes (parts.map fun part => call.work add contents part.1 part.2) memory result

/-! ### The bags of a table -/

/-- The array of an operand has as many entries as it declares, and lies in memory. -/
structure PooledOperand.Held (operand : PooledOperand) : Prop where
  length : operand.values.length = operand.count.toNat
  sized : operand.count * 8 < 2 ^ 63

/-- The sum, from `start` on, of column `d` of the rows of a bag, in their order. -/
def bagSum (add : Nat → Nat → Nat) (rows : Memory Nat) (dim : Int) (bag : List Int) (d : Int)
    (start : Nat) : Nat :=
  bag.foldl (fun acc row => add acc (rows (row * dim + d) % 2 ^ 32)) start

namespace PooledTable

variable (table : PooledTable) (bags : Int)

def indexAt (k : Int) : Int := table.indices.values.getD k.toNat 0

/-- Where bag `b` begins; past the last bag, the end of the index array. -/
def cut (b : Int) : Int :=
  if b < bags then table.offsets.values.getD b.toNat 0 else table.indices.count

/-- The rows of bag `b`, in index order. -/
def bag (b : Int) : List Int :=
  (intRange (table.cut bags b) (table.cut bags (b + 1))).map table.indexAt

/-- A row of the table. -/
def Has (row : Int) : Prop := 0 ≤ row ∧ row < table.rowCount

/-- The bags cut the index array from its beginning to its end. -/
structure Cut : Prop where
  indices : table.indices.Held
  offsets : table.offsets.Held
  count : table.offsets.count = bags
  zero : table.cut bags 0 = 0
  step : ∀ b, 0 ≤ b → b < bags → table.cut bags b ≤ table.cut bags (b + 1)

end PooledTable

theorem PooledOperand.Held.get_eq {ε : Type} {operand : PooledOperand} (h : operand.Held) {k : Int}
    (hk : 0 ≤ k) (hlt : k < operand.count) :
    (operand.get k : Outcome ε Int) = .ok (operand.values.getD k.toNat 0) := by
  have hlength := h.length
  have hnat : k.toNat < operand.values.length := by omega
  rw [PooledOperand.get, if_pos hk, fetch_of_lt hnat, List.getD_eq_getElem _ _ hnat]

namespace PooledTable.Cut

variable {table : PooledTable} {bags : Int} (h : table.Cut bags)

include h

theorem mono {a b : Int} (ha : 0 ≤ a) (hab : a ≤ b) (hb : b ≤ bags) :
    table.cut bags a ≤ table.cut bags b := by
  induction b, hab using Int.leInduction with
  | base => exact le_refl _
  | succ b hab ih => exact (ih (by omega)).trans (h.step b (by omega) (by omega))

theorem bounds {b : Int} (hb : 0 ≤ b) (hle : b ≤ bags) :
    0 ≤ table.cut bags b ∧ table.cut bags b ≤ table.indices.count := by
  have hlow := h.mono (le_refl 0) hb hle
  have hhigh := h.mono hb hle (le_refl _)
  have hend : table.cut bags bags = table.indices.count := if_neg (lt_irrefl _)
  rw [h.zero] at hlow
  rw [hend] at hhigh
  exact ⟨hlow, hhigh⟩

theorem get_offset {ε : Type} {b : Int} (hb : 0 ≤ b) (hlt : b < bags) :
    (table.offsets.get b : Outcome ε Int) = .ok (table.cut bags b) := by
  rw [h.offsets.get_eq hb (by rw [h.count]; exact hlt), PooledTable.cut, if_pos hlt]

/-- The bags of a table, one after the other, are its index array. -/
theorem flatMap_bag (hbags : 0 ≤ bags) :
    (intRange 0 bags).flatMap (table.bag bags) = table.indices.values := by
  have hprefix : ∀ n : Nat, (n : Int) ≤ bags → (intRange 0 n).flatMap (table.bag bags) =
      (intRange 0 (table.cut bags n)).map table.indexAt := by
    intro n
    induction n with
    | zero =>
        intro _
        rw [Nat.cast_zero, h.zero]
        rfl
    | succ n ih =>
        intro hle
        push_cast at hle ⊢
        have hcut := h.bounds (show (0 : Int) ≤ n by omega) (by omega)
        rw [intRange_append n (by omega) (by omega), List.flatMap_append, ih (by omega),
          intRange_one, List.flatMap_singleton, PooledTable.bag, ← List.map_append,
          ← intRange_append _ hcut.1 (h.step n (by omega) (by omega))]
  have hall := hprefix bags.toNat (by omega)
  have hend : table.cut bags bags = table.indices.count := if_neg (lt_irrefl _)
  rw [Int.toNat_of_nonneg hbags, hend] at hall
  rw [hall]
  refine List.ext_getElem ?_ fun k hk hlt => ?_
  · rw [List.length_map, intRange, List.length_map, List.length_range, h.indices.length, sub_zero]
  · simp [intRange, PooledTable.indexAt, List.getElem?_eq_getElem hlt]

end PooledTable.Cut

/-! ### One bag -/

namespace BagsCall

variable {call : BagsCall} {add : Nat → Nat → Nat} {table : PooledTable}

theorem boundary_eq (h : table.Cut call.bags) {b : Int} (hb : 0 ≤ b) :
    call.boundary table b = .ok (table.cut call.bags b) := by
  unfold boundary
  split
  · rename_i hlt
    exact h.get_offset hb hlt
  · rename_i hge
    rw [PooledTable.cut, if_neg hge]

/-- A hint only computes an address of the table. -/
theorem touch_eq {bags rowStride : Int} (h : table.Cut bags)
    (hrows : FitsI64 (table.rowCount * rowStride)) (hstride : 0 ≤ rowStride) {streamEnd k : Int}
    (hk : 0 ≤ k) (hend : streamEnd ≤ table.indices.count) :
    touch table rowStride streamEnd k = .ok () := by
  unfold touch
  by_cases hlt : k < streamEnd
  · rw [if_pos hlt, h.indices.get_eq hk (by omega), ok_bind]
    split
    · rename_i hrow
      have hlow := mul_nonneg hrow.1 hstride
      have hhigh := mul_le_mul_of_nonneg_right hrow.2.le hstride
      rw [mul64, exact64_of_fits (by unfold FitsI64 at hrows ⊢; omega), ok_bind, pure_eq]
    · rfl
  · rw [if_neg hlt, pure_eq]

/-- A bag is summed when all its indices name rows of the table. -/
theorem pooledBag_guards (call : BagsCall) (h : table.Cut call.bags)
    (hrows : FitsI64 (table.rowCount * (call.dim * 4))) (hdim : 0 ≤ call.dim) (rows : Memory Nat)
    {ks : List Int} (hks : ∀ k ∈ ks, 0 ≤ k ∧ k < table.indices.count) (start : Int → Nat) :
    (call.pooledBag add table rows ks ((intRange 0 call.dim).map start)).Guards
      (∀ row ∈ ks.map table.indexAt, table.Has row) bagOutside
      ((intRange 0 call.dim).map fun d =>
        bagSum add rows call.dim (ks.map table.indexAt) d (start d)) := by
  induction ks generalizing start with
  | nil => exact (guards_of_ok rfl).iff (by simp)
  | cons k rest ih =>
      rw [List.forall_mem_cons] at hks
      rw [pooledBag, h.indices.get_eq hks.1.1 hks.1.2, ok_bind, List.map_cons]
      have hhas : (require (0 ≤ table.indexAt k ∧ table.indexAt k < table.rowCount)
          bagOutside).Guards (table.Has (table.indexAt k)) bagOutside () := guards_require
      refine (hhas.bind fun hrow => ?_).iff List.forall_mem_cons.symm
      have hnext : (table.indexAt k + 1) * call.dim ≤ table.rowCount * call.dim :=
        mul_le_mul_of_nonneg_right (by have := hrow.2; omega) hdim
      rw [add_mul, one_mul] at hnext
      have hbase := mul_nonneg hrow.1 hdim
      rw [← mul_assoc] at hrows
      have hload : mapEach (intRange 0 call.dim) (fun d =>
          call.load table rows (table.indexAt k * call.dim + d)) =
            .ok ((intRange 0 call.dim).map fun d =>
              rows (table.indexAt k * call.dim + d) % 2 ^ 32) := by
        refine mapEach_eq_map fun d hd => ?_
        rw [mem_intRange] at hd
        rw [load, if_pos ⟨by omega, by omega⟩]
      have hfits : FitsI64 (table.indexAt k * call.dim) := by
        unfold FitsI64 at hrows ⊢
        omega
      change ((mul64 (table.indexAt k) call.dim) >>= _).Guards _ _ _
      rw [mul64, exact64_of_fits hfits, ok_bind, hload, ok_bind, List.zipWith_map,
        List.zipWith_self]
      exact ih hks.2 fun d => add (start d) (rows (table.indexAt k * call.dim + d) % 2 ^ 32)

end BagsCall

/-! ### The work of a call -/

def pooledWidth (narrow : Bool) : Nat := if narrow then 2 else 4

/-- A sum as it is stored: rounded to 16 bits, or as it is. -/
def storeSum (narrow : Bool) (bits : Nat) : Nat :=
  (if narrow = true then narrowF32F16 bits else bits) % 2 ^ (8 * pooledWidth narrow)

/-- What a pooled program needs to run. -/
structure DispatchProgram.Pools (program : DispatchProgram) (narrow : Bool) : Prop where
  stages : program.stages = if narrow then [narrowArithmetic] else []
  sourceType : program.plan.sourceType = kF32
  nonempty : program.pooledTables ≠ []
  bags : 1 ≤ program.pooledBags
  dim : 1 ≤ program.pooledDim ∧ program.pooledDim ≤ 1024
  tables : ∀ table ∈ program.pooledTables, table.Cut program.pooledBags ∧
    FitsI64 (table.rowCount * (program.pooledDim * 4))
  result : FitsI64 (program.pooledTables.length * program.pooledDim * program.pooledBags * 4)

/-- The bytes of a result row. -/
def DispatchProgram.pooledRowBytes (program : DispatchProgram) (narrow : Bool) : Int :=
  program.pooledTables.length * program.pooledDim * pooledWidth narrow

/-- A call for the bags `[first, last)`. -/
def DispatchProgram.pooledCall (program : DispatchProgram) (narrow : Bool) (first last : Int) :
    BagsCall where
  program
  narrow
  outputWidth := pooledWidth narrow
  rowBytes := program.pooledRowBytes narrow
  first
  last

section

variable (program : DispatchProgram) (narrow : Bool) (first last : Int)

@[simp] theorem pooledCall_bags :
    (program.pooledCall narrow first last).bags = program.pooledBags := rfl

@[simp] theorem pooledCall_dim :
    (program.pooledCall narrow first last).dim = program.pooledDim := rfl

@[simp] theorem pooledCall_tables :
    (program.pooledCall narrow first last).tables = program.pooledTables.length := rfl

@[simp] theorem pooledCall_first : (program.pooledCall narrow first last).first = first := rfl

@[simp] theorem pooledCall_rowBytes :
    (program.pooledCall narrow first last).rowBytes = program.pooledRowBytes narrow := rfl

@[simp] theorem pooledCall_outputWidth :
    (program.pooledCall narrow first last).outputWidth = pooledWidth narrow := rfl

end

/-- All indices of the bags `[first, last)` name rows of their tables. -/
def DispatchProgram.Inside (program : DispatchProgram) (first last : Int) : Prop :=
  ∀ table ∈ program.pooledTables, ∀ b, first ≤ b ∧ b < last →
    ∀ row ∈ table.bag program.pooledBags b, table.Has row

namespace DispatchProgram.Pools

variable {program : DispatchProgram} {narrow : Bool} {add : Nat → Nat → Nat}
  {contents : Nat → Memory Nat} {first last : Int}

/-- The cells of bag `b` of the table at `t`, in a window that starts at bag `first`. -/
def summedCells (program : DispatchProgram) (narrow : Bool) (add : Nat → Nat → Nat)
    (contents : Nat → Memory Nat) (first : Int) (entry : PooledTable × Nat) (b : Int) :
    List CellWrite :=
  (intRange 0 program.pooledDim).map fun d =>
    ⟨(b - first) * (program.pooledTables.length * program.pooledDim) +
        entry.2 * program.pooledDim + d,
      storeSum narrow (bagSum add (contents entry.2) program.pooledDim
        (entry.1.bag program.pooledBags b) d 0)⟩

variable (h : program.Pools narrow)

include h

theorem tables_pos : (1 : Int) ≤ program.pooledTables.length := by
  have hlength := List.length_pos_iff.mpr h.nonempty
  omega

theorem rowElements_pos : 1 ≤ program.pooledTables.length * program.pooledDim :=
  one_le_mul_of_one_le_of_one_le h.tables_pos h.dim.1

omit h in
theorem width_bounds (narrow : Bool) : 1 ≤ (pooledWidth narrow : Int) ∧
    (pooledWidth narrow : Int) ≤ 4 := by
  cases narrow <;> decide

/-- The bytes of some rows of the result, and what is less. -/
theorem fits_rows {count x : Int} (hcount : count ≤ program.pooledBags) (hx : 0 ≤ x)
    (hle : x ≤ count * program.pooledRowBytes narrow) : FitsI64 x := by
  have hresult := h.result
  have hwidth := width_bounds narrow
  have helements := h.rowElements_pos
  have hbags := h.bags
  have hrow : 0 ≤ program.pooledRowBytes narrow := mul_nonneg (by omega) (by omega)
  have hall := mul_le_mul_of_nonneg_right hcount hrow
  have hcells := mul_nonneg (show 0 ≤ program.pooledBags by omega)
    (show 0 ≤ program.pooledTables.length * program.pooledDim by omega)
  have htotal := mul_le_mul_of_nonneg_left hwidth.2 hcells
  have hassoc : program.pooledBags * program.pooledRowBytes narrow =
      program.pooledBags * (program.pooledTables.length * program.pooledDim) *
        pooledWidth narrow := (mul_assoc _ _ _).symm
  rw [mul_comm (program.pooledTables.length * program.pooledDim) program.pooledBags] at hresult
  unfold FitsI64 at hresult ⊢
  omega

/-- One bag of one table. -/
theorem bagCells_guards {entry : PooledTable × Nat} (hentry : entry ∈ program.pooledTables.zipIdx)
    {streamEnd b : Int} (hend : streamEnd ≤ entry.1.indices.count) (hfirst : 0 ≤ first)
    (hb : first ≤ b) (hlt : b < program.pooledBags) :
    ((program.pooledCall narrow first last).bagCells add entry.1 (contents entry.2)
      (program.pooledDim * 4) streamEnd entry.2 b).Guards
        (∀ row ∈ entry.1.bag program.pooledBags b, entry.1.Has row) bagOutside
        (summedCells program narrow add contents first entry b) := by
  obtain ⟨table, t⟩ := entry
  obtain ⟨ht, htable⟩ := List.getElem?_eq_some_iff.mp (List.mk_mem_zipIdx_iff_getElem?.mp hentry)
  have hmem : table ∈ program.pooledTables := htable ▸ List.getElem_mem ht
  obtain ⟨hcut, hrows⟩ := h.tables table hmem
  dsimp only at hend ⊢
  have hlow := hcut.bounds (show 0 ≤ b by omega) hlt.le
  have hhigh := hcut.bounds (show 0 ≤ b + 1 by omega) (by omega)
  have hsized := hcut.indices.sized
  have hdim := h.dim
  have hrow := h.rowElements_pos
  have hwidth := width_bounds narrow
  have hrowBytes : 1 ≤ program.pooledRowBytes narrow :=
    one_le_mul_of_one_le_of_one_le hrow hwidth.1
  -- every number is at most the bytes of the rows up to and with this one
  have hnumbers : ∀ x, 0 ≤ x → x ≤ (b - first + 1) * program.pooledRowBytes narrow → FitsI64 x :=
    fun x => h.fits_rows (by omega)
  have hall : ∀ x, 0 ≤ x → x ≤ program.pooledBags * program.pooledRowBytes narrow → FitsI64 x :=
    fun x => h.fits_rows (le_refl _)
  have hcount := le_mul_of_one_le_right (show 0 ≤ program.pooledBags by omega) hrowBytes
  have htouch : mapEach (intRange (table.cut program.pooledBags b)
      (table.cut program.pooledBags (b + 1))) (fun k => (do
        let ahead ← add64 k kAhead
        BagsCall.touch table (program.pooledDim * 4) streamEnd ahead :
          Outcome ExecutionError Unit)) = .ok ((intRange (table.cut program.pooledBags b)
            (table.cut program.pooledBags (b + 1))).map fun _ => ()) := by
    refine mapEach_eq_map fun k hk => ?_
    rw [mem_intRange] at hk
    rw [add64, exact64_of_fits (by unfold FitsI64 kAhead; omega), ok_bind]
    exact BagsCall.touch_eq hcut hrows (by omega) (by unfold kAhead; omega) hend
  unfold BagsCall.bagCells
  rw [hcut.get_offset (by omega) hlt, ok_bind, add64,
    exact64_of_fits (hall _ (by omega) (by omega)),
    ok_bind, BagsCall.boundary_eq hcut (by omega), ok_bind]
  simp only [pooledCall_bags, pooledCall_dim, pooledCall_tables, pooledCall_first,
    pooledCall_rowBytes, pooledCall_outputWidth]
  rw [htouch, ok_bind]
  refine (BagsCall.pooledBag_guards (program.pooledCall narrow first last) hcut hrows
    (show 0 ≤ program.pooledDim by omega) (contents t) (fun k hk => ?_) fun _ => 0).map fun _ => ?_
  · rw [mem_intRange] at hk
    omega
  · have hskip := mul_nonneg (show 0 ≤ b - first by omega)
      (show 0 ≤ program.pooledRowBytes narrow by omega)
    have hcolumn := mul_nonneg (Int.natCast_nonneg t) (show 0 ≤ program.pooledDim by omega)
    have hbytes := mul_nonneg hcolumn (show 0 ≤ (pooledWidth narrow : Int) by omega)
    have hself := le_mul_of_one_le_right hcolumn hwidth.1
    have hlast : t * program.pooledDim * pooledWidth narrow ≤ program.pooledRowBytes narrow :=
      mul_le_mul_of_nonneg_right (mul_le_mul_of_nonneg_right (by omega) (by omega)) (by omega)
    have hspan := le_mul_of_one_le_right (show 0 ≤ b - first by omega) hrowBytes
    rw [add_mul, one_mul] at hnumbers
    rw [sub64, exact64_of_fits (hnumbers _ (by omega) (by omega)), ok_bind, mul64,
      exact64_of_fits (hnumbers _ hskip (by omega)), ok_bind, mul64,
      exact64_of_fits (hnumbers _ hcolumn (by omega)), ok_bind, mul64,
      exact64_of_fits (hnumbers _ hbytes (by omega)), ok_bind, add64,
      exact64_of_fits (hnumbers _ (by omega) (by omega)), ok_bind, pure_eq, pooledCall_dim,
      List.zipWith_map_right, List.zipWith_self]
    rfl

/-- A worker's bags of one table. -/
theorem tableCells_guards {entry : PooledTable × Nat}
    (hentry : entry ∈ program.pooledTables.zipIdx) (hfirst : 0 ≤ first) {lo hi : Int}
    (hlo : first ≤ lo) (hlt : lo < hi) (hhi : hi ≤ program.pooledBags) :
    ((program.pooledCall narrow first last).tableCells add contents lo hi
      (program.pooledDim * 4) entry).Guards
        (∀ b ∈ intRange lo hi, ∀ row ∈ entry.1.bag program.pooledBags b, entry.1.Has row) bagOutside
        ((intRange lo hi).flatMap (summedCells program narrow add contents first entry)) := by
  obtain ⟨ht, htable⟩ := List.getElem?_eq_some_iff.mp (List.mk_mem_zipIdx_iff_getElem?.mp hentry)
  have hmem : entry.1 ∈ program.pooledTables := htable ▸ List.getElem_mem ht
  obtain ⟨hcut, hrows⟩ := h.tables entry.1 hmem
  have hdim := h.dim
  have hsized := hcut.indices.sized
  have hstart := hcut.bounds (show 0 ≤ lo by omega) (by omega)
  have hend := (hcut.bounds (show 0 ≤ hi by omega) hhi).2
  have htouch : mapEach (intRange (entry.1.cut program.pooledBags lo)
      (entry.1.cut program.pooledBags lo + kAhead)) (BagsCall.touch entry.1
        (program.pooledDim * 4) (entry.1.cut program.pooledBags hi)) =
          .ok ((intRange (entry.1.cut program.pooledBags lo)
            (entry.1.cut program.pooledBags lo + kAhead)).map fun _ => ()) := by
    refine mapEach_eq_map fun k hk => ?_
    rw [mem_intRange] at hk
    exact BagsCall.touch_eq hcut hrows (by omega) (by omega) hend
  unfold BagsCall.tableCells
  dsimp only
  rw [BagsCall.boundary_eq hcut (by omega), ok_bind, hcut.get_offset (by omega) (by omega), ok_bind,
    add64, exact64_of_fits (by unfold FitsI64 kAhead; omega), ok_bind, pooledCall_bags, htouch,
    ok_bind]
  refine (guards_mapEach fun b hb => ?_).map fun _ => by rw [pure_eq, List.flatMap_def]
  rw [mem_intRange] at hb
  exact h.bagCells_guards hentry hend hfirst (by omega) (by omega)

/-- A worker's cells: those of its bags, table by table. -/
def workCells (program : DispatchProgram) (narrow : Bool) (add : Nat → Nat → Nat)
    (contents : Nat → Memory Nat) (first lo hi : Int) : List CellWrite :=
  program.pooledTables.zipIdx.flatMap fun entry =>
    (intRange lo hi).flatMap (summedCells program narrow add contents first entry)

theorem work_guards (hfirst : 0 ≤ first) {lo hi : Int} (hlo : first ≤ lo) (hlt : lo < hi)
    (hhi : hi ≤ program.pooledBags) :
    ((program.pooledCall narrow first last).work add contents lo hi).Guards
      (program.Inside lo hi) bagOutside (workCells program narrow add contents first lo hi) := by
  have hdim := h.dim
  unfold BagsCall.work
  rw [pooledCall_dim, mul64, exact64_of_fits (by unfold FitsI64; omega), ok_bind]
  refine Guards.iff (Guards.map (guards_mapEach fun entry hentry =>
    h.tableCells_guards hentry hfirst hlo hlt hhi) fun _ => ?_) ?_
  · rw [pure_eq, workCells, List.flatMap_def]
    rfl
  · constructor
    · intro hall table hmem b hb row hrow
      obtain ⟨t, ht, rfl⟩ := List.getElem_of_mem hmem
      refine hall (program.pooledTables[t], t) ?_ b (mem_intRange.mpr hb) row hrow
      exact List.mk_mem_zipIdx_iff_getElem?.mpr (List.getElem?_eq_getElem ht)
    · intro hall entry hentry b hb row hrow
      obtain ⟨ht, htable⟩ :=
        List.getElem?_eq_some_iff.mp (List.mk_mem_zipIdx_iff_getElem?.mp hentry)
      exact hall entry.1 (htable ▸ List.getElem_mem ht) b (mem_intRange.mp hb) row hrow

end DispatchProgram.Pools

end SymReloc
