import SymReloc.Runtime.BindIndexed
import SymReloc.Runtime.TransferChecks

/-!
# Programs and views of a dispatch

A dispatched program relocates a dense source, selects rows of a table, or sums bags of
rows of several tables.  `checkView` is what a dispatch asks of the view at either end;
`prepareIndexSelect` and `preparePooledBags` make the two programs that go through row
indices.
-/

namespace SymReloc

open Outcome

/-! ### Programs -/

/-- An array of 64-bit integers of the caller: where it is, its declared length and what it
    holds. -/
structure PooledOperand where
  address : Nat
  count : Int
  values : List Int
deriving DecidableEq, Repr

/-- One table of a pooled program, dense rows of 32-bit floats from an address on. -/
structure PooledTable where
  rows : Nat
  rowCount : Int
  indices : PooledOperand
  offsets : PooledOperand
deriving DecidableEq, Repr

/-- A program with its row indirection: none, the rows to select of a table, or the tables
    whose bags are summed. -/
structure DispatchProgram extends Program where
  indexedSourceRows : Int
  indexedRowElements : Int
  rowIndices : List Int
  pooledTables : List PooledTable
  pooledBags : Int
  pooledDim : Int
deriving DecidableEq, Repr

/-- A program over a dense source. -/
def Program.direct (program : Program) : DispatchProgram where
  toProgram := program
  indexedSourceRows := 0
  indexedRowElements := 0
  rowIndices := []
  pooledTables := []
  pooledBags := 0
  pooledDim := 0

def fromExecution (reason : ExecutionError) : TransferError :=
  { code := reason.code.text, message := reason.message }

/-! ### Views -/

/-- `elements *= extent` over the extents of a view. -/
def countElements : List Int → Int → Outcome TransferError Int
  | [], elements => .ok elements
  | extent :: rest, elements => do
      let elements ← mul64 elements extent
      countElements rest elements

/-- The bytes of the tensor at a boundary, in the result or the source layout. -/
def DispatchProgram.boundaryBytes (program : DispatchProgram) (boundary : Nat)
    (resultLayout : Bool) : Outcome TransferError Int := do
  let width ← (program.widthAt boundary).mapError fromExecution
  mul64 (if resultLayout then program.resultElements else program.sourceElements) width

/-- The source or destination view of a program has the program's type and shape. -/
def checkView (program : DispatchProgram) (view : BufferView) (isSource : Bool)
    (direction : TransferDirection) : Outcome TransferError Unit := do
  let what := if isSource then "source" else "destination"
  require (¬ (direction = .hostToDevice ∧ isSource ∧ view.kind = .cuda))
    (fail "direction_mismatch" "host-to-device source must be host memory")
  require (¬ (direction = .deviceToHost ∧ ¬ isSource ∧ view.kind = .cuda))
    (fail "direction_mismatch" "device-to-host destination must be host memory")
  let span ← viewSpanBytes view what
  let boundary := if isSource then 0 else program.stages.length
  let width ← (program.widthAt boundary).mapError fromExecution
  require (view.elementSize = width)
    (fail "plan_mismatch" (what ++ " element size differs from the typed program's " ++
      (if isSource then "source" else "result") ++ " type"))
  let dense ← view.isDense
  require (dense = true)
    (fail "unsupported_layout" (what ++ " view must be dense row-major"))
  if isSource ∧ program.pooledTables ≠ [] then
    -- the tables were checked when the program was made; this view only names the first
    require (direction = .hostToDevice ∧ view.kind = .host)
      (fail "plan_mismatch" "pooled producers upload from the host")
  else if isSource ∧ program.indexedSourceRows ≠ 0 then do
    let _ ← fetch program.plan.sourceExtents 0
    require (direction = .hostToDevice ∧
        view.extents = program.plan.sourceExtents.set 0 program.indexedSourceRows)
      (fail "plan_mismatch" "indexed source requires the prepared host row shape")
  else do
    let expectedBytes ← program.boundaryBytes boundary (¬ isSource)
    require (span = toSize expectedBytes)
      (fail "plan_mismatch" (what ++ " view spans " ++ toString span ++
        " bytes but the typed program needs " ++ toString expectedBytes))
    if isSource then do
      let elements ← countElements view.extents 1
      require (elements = program.sourceElements)
        (fail "plan_mismatch"
          "source view element count differs from the program's source descriptor")
    else pure ()

/-! ### Dense views -/

/-- A dense view spans the bytes of its elements. -/
theorem BufferView.Spans.dense {view : BufferView} {bytes : Nat} (h : view.Spans bytes)
    (hdense : Strides.reach view.axes + 1 = view.extents.prod) :
    (bytes : Int) = view.extents.prod * view.elementSize := by
  rw [h.bytes_eq, hdense]

/-! ### Row selections -/

/-- The program of a bound row selection over a view of its source. -/
def prepareIndexSelect (bound : IndexedBoundPlan) (source : BufferView) :
    Outcome TransferError DispatchProgram := do
  let prepared ← (prepareProgram bound.selected).mapError fromExecution
  require (bound.sourceExtents ≠ [] ∧ bound.indices ≠ [])
    (fail "plan_mismatch" "indexed binding requires nonempty source and indices")
  let rows ← fetch bound.sourceExtents 0
  let program : DispatchProgram := { prepared.direct with
    indexedSourceRows := rows
    indexedRowElements := bound.rowElements
    rowIndices := bound.indices }
  checkView program source true .hostToDevice
  pure program

/-- The cast of a selection that converts. -/
def selectedArithmetic (plan : IndexedRelocationPlan) : StageArithmetic where
  transform := .cast
  policy := (NumericPolicyKind.bytes.ofByte? plan.policy).getD .ieeeRne
  input := plan.source.elementType
  output := plan.result.elementType
  scale := []
  invScale := []
  zeroPoint := []
  perChannel := false
  channelIsDim := false
  channelDim := 0
  channelLength := 1

/-- The program of a bound selection, with a view of all rows of the table. -/
structure DispatchProgram.SelectsFrom (program : DispatchProgram) (plan : IndexedRelocationPlan)
    (bound : IndexedBoundPlan) (sourceRows : Int) (source : BufferView) : Prop where
  selected : program.plan = bound.selected
  stages : program.stages =
    if plan.source.elementType = plan.result.elementType then [] else [selectedArithmetic plan]
  rows : program.indexedSourceRows = sourceRows
  columns : program.indexedRowElements = bound.rowElements
  indices : program.rowIndices = bound.indices
  tables : program.pooledTables = []
  host : source.kind = .host
  extents : source.extents = bound.sourceExtents
  inside : source.offsetBytes +
    sourceRows * bound.rowElements * byteWidth plan.source.elementType ≤ source.capacityBytes

theorem sat_prepareProgram_selected {bound : IndexedBoundPlan} {plan : IndexedRelocationPlan}
    {operand : IndexOperand} {sourceRows : Int} {rowShape : List Int}
    (h : bound.Selects plan operand sourceRows rowShape) :
    (prepareProgram bound.selected).Sat fun program => program.plan = bound.selected ∧
      program.stages = if plan.source.elementType = plan.result.elementType then []
        else [selectedArithmetic plan] := by
  unfold prepareProgram
  rw [h.stages, sat_bind]
  by_cases hsame : plan.source.elementType = plan.result.elementType
  · rw [if_pos hsame, if_pos hsame]
    exact ⟨rfl, rfl⟩
  · rw [if_neg hsame, if_neg hsame, List.zipIdx_singleton, mapEach, sat_bind]
    have harithmetic : (prepareArithmetic 0 (selectedStage plan bound.selected.sourceExtents)).Sat
        fun stage => stage = selectedArithmetic plan := sat_require_bind.mpr fun _ => rfl
    have hprepare : (prepareStage bound.selected 0
        (selectedStage plan bound.selected.sourceExtents)).Sat
          fun stage => stage = selectedArithmetic plan := by
      unfold prepareStage
      rw [sat_bind]
      refine harithmetic.mono fun stage hstage => ?_
      subst hstage
      exact sat_require_bind.mpr fun _ => rfl
    refine hprepare.mono fun stage hstage => ?_
    subst hstage
    exact ⟨rfl, rfl⟩

/-- The source view of a selection has the rows of the table. -/
theorem sat_checkView_rows {program : DispatchProgram} {source : BufferView}
    (htables : program.pooledTables = []) (hrows : program.indexedSourceRows ≠ 0)
    (hextents : program.plan.sourceExtents ≠ []) (hsource : source.Machine) :
    (checkView program source true .hostToDevice).Sat fun _ => source.kind = .host ∧
      source.extents = program.plan.sourceExtents.set 0 program.indexedSourceRows ∧
      source.offsetBytes + source.extents.prod * byteWidth program.plan.sourceType ≤
        source.capacityBytes := by
  have hwidth : program.widthAt 0 = .ok (byteWidth program.plan.sourceType) := rfl
  unfold checkView
  refine sat_require_bind.mpr fun hkind => sat_require_bind.mpr fun _ => sat_bind.mpr ?_
  refine (sat_viewSpanBytes hsource.extents _).mono fun span hspan => ?_
  dsimp only
  rw [if_pos rfl, hwidth]
  refine sat_require_bind.mpr fun hsize => sat_bind.mpr ?_
  refine (sat_isDense hspan.rank).mono fun dense hreach => sat_require_bind.mpr fun hdense => ?_
  rw [if_neg (by simp [htables]), if_pos ⟨rfl, hrows⟩]
  refine sat_fetch_bind (List.length_pos_iff.mpr hextents) (sat_require fun hshape => ?_)
  refine ⟨?_, hshape.2, ?_⟩
  · cases hcase : source.kind with
    | host => rfl
    | cuda => exact absurd ⟨rfl, rfl, hcase⟩ hkind
  · have hinside := hspan.inside
    rw [← hsize, ← hspan.dense (hreach hdense)]
    exact_mod_cast hinside

/-- Preparing a selection neither overflows nor leaves a vector, and accepts a view of the
    table only. -/
theorem sat_prepareIndexSelect {bound : IndexedBoundPlan} {plan : IndexedRelocationPlan}
    {operand : IndexOperand} {sourceRows : Int} {rowShape : List Int} {source : BufferView}
    (h : bound.Selects plan operand sourceRows rowShape) (hsource : source.Machine) :
    (prepareIndexSelect bound source).Sat fun program =>
      program.SelectsFrom plan bound sourceRows source := by
  have hfirst : (fetch bound.sourceExtents 0 : Outcome TransferError Int) = .ok sourceRows := by
    rw [h.source]
    rfl
  unfold prepareIndexSelect
  rw [sat_bind, sat_mapError]
  refine (sat_prepareProgram_selected h).mono fun prepared hprepared => ?_
  obtain ⟨hplan, hstages⟩ := hprepared
  refine sat_require_bind.mpr fun _ => ?_
  rw [hfirst, ok_bind, sat_bind]
  have hrows : sourceRows ≠ 0 := by have := h.extents.1; omega
  have hextents : prepared.plan.sourceExtents ≠ [] := by
    rw [hplan, h.shape.1]
    exact List.cons_ne_nil _ _
  refine (sat_checkView_rows rfl hrows hextents hsource).mono fun _ hview => ?_
  obtain ⟨hhost, hshape, hinside⟩ := hview
  have hsame : source.extents = bound.sourceExtents := by
    rw [hshape, h.source]
    show prepared.plan.sourceExtents.set 0 sourceRows = _
    rw [hplan, h.shape.1, List.set_cons_zero]
  refine ⟨hplan, hstages, rfl, rfl, rfl, rfl, hhost, hsame, ?_⟩
  have htype : prepared.plan.sourceType = plan.source.elementType := by rw [hplan, h.types.1]
  rw [hsame, h.source, List.prod_cons, ← h.row] at hinside
  rw [← htype]
  exact hinside

/-! ### Bags of rows -/

/-- The offsets start at zero and do not decrease, within the index operand. -/
def checkOffsets (offset : PooledOperand) (indexCount : Int) :
    List Nat → Int → Outcome TransferError Unit
  | [], _ => .ok ()
  | bag :: rest, previous => do
      let value ← fetch offset.values bag
      require (previous ≤ value ∧ value ≤ indexCount ∧ (bag = 0 → value = 0))
        (fail "invalid_parameter" ("pooled offsets must start at zero and be nondecreasing " ++
          "within the index operand"))
      checkOffsets offset indexCount rest value

/-- One table of a pooled program. -/
def preparePooledTable (bags dim : Int) (view : BufferView) (index offset : PooledOperand) :
    Outcome TransferError PooledTable := do
  let shape := fail "unsupported_layout"
    "pooled tables must be dense float32 [rows, dim] host views"
  require (view.kind = .host ∧ view.elementSize = 4 ∧ view.extents.length = 2 ∧
      view.extents[1]? = some dim ∧ (∀ rows ∈ view.extents[0]?, 0 < rows)) shape
  -- before the ranks of the view are compared
  let dense ← view.isDense
  require (dense = true) shape
  let rowCount ← fetch view.extents 0
  let _ ← viewSpanBytes view "table"
  require (0 ≤ index.count ∧ offset.count = bags ∧ (0 < index.count → index.address ≠ 0) ∧
      offset.address ≠ 0)
    (fail "invalid_parameter" "pooled offsets need one entry per bag and valid indices")
  checkOffsets offset index.count (List.range bags.toNat) 0
  pure { rows := view.base + view.offsetBytes, rowCount, indices := index, offsets := offset }

def preparePooledTables (bags dim : Int) :
    List BufferView → List PooledOperand → List PooledOperand →
      Outcome TransferError (List PooledTable)
  | view :: views, index :: indices, offset :: offsets => do
      let table ← preparePooledTable bags dim view index offset
      let tables ← preparePooledTables bags dim views indices offsets
      pure (table :: tables)
  | _, _, _ => .ok []

def kF32 : ElementType := ⟨.float, 32⟩
def kF16 : ElementType := ⟨.float, 16⟩

/-- The cast of a pooled program that narrows its sums. -/
def narrowArithmetic : StageArithmetic where
  transform := .cast
  policy := .ieeeRne
  input := kF32
  output := kF16
  scale := []
  invScale := []
  zeroPoint := []
  perChannel := false
  channelIsDim := false
  channelDim := 0
  channelLength := 1

def narrowBound (shape : List Int) : BoundStage where
  transform := .cast
  policy := .ieeeRne
  input := ⟨kF32, .signless⟩
  output := ⟨kF16, .signless⟩
  shape
  axis := -1
  channel := none
  scale := none
  zeroPoint := none

/-- The plan of the sums: one row of all tables' sums for each bag. -/
def pooledPlan (tableCount bags dim rowElements totalElements : Int) (narrow : Bool) :
    TypedBoundPlan :=
  let shape := [bags, tableCount, dim]
  let width := if narrow then 2 else 4
  let destinationBytes := totalElements * width
  { layout := {
      extents := [bags, rowElements]
      srcStrides := [rowElements, 1]
      dstStrides := [rowElements, 1]
      perm := [0, 1]
      padRegions := []
      elementSize := if narrow then 2 else 4
      totalBytes := destinationBytes
      noCopy := false
      typed := true
      strategy := .auto
      L := totalElements
      requiredAlignments := [] }
    sourceExtents := shape
    resultExtents := shape
    sourceType := kF32
    resultType := if narrow then kF16 else kF32
    symbols := []
    stages := if narrow then [narrowBound shape] else []
    fills := []
    cuts := ⟨0, kF32, totalElements, totalElements * 4⟩ ::
      if narrow then [⟨1, kF16, totalElements, destinationBytes⟩] else []
    sourceBytes := totalElements * 4
    destinationBytes
    parameterBytes := 0
    requirements := [] }

/-- `preparePooledBags`. -/
def preparePooledBags (tables : List BufferView) (indices offsets : List PooledOperand)
    (bags dim : Int) (narrow : Bool) : Outcome TransferError DispatchProgram := do
  require (tables ≠ [] ∧ tables.length = indices.length ∧ tables.length = offsets.length)
    (fail "invalid_parameter" "pooled producer needs one index/offset operand per table")
  require (0 < bags ∧ 0 < dim ∧ dim ≤ 1024)
    (fail "invalid_parameter" "pooled producer needs positive bags and a dim of at most 1024")
  let tableCount : Int := tables.length
  let overflow := fail "integer_overflow" "pooled result size overflows"
  let rowElements ← checkedOr (tableCount * dim) overflow
  let totalElements ← checkedOr (rowElements * bags) overflow
  let pooledTables ← preparePooledTables bags dim tables indices offsets
  -- the byte counts of the plan are products without a test
  let _ ← mul64 totalElements 4
  pure {
    plan := pooledPlan tableCount bags dim rowElements totalElements narrow
    stages := if narrow then [narrowArithmetic] else []
    resultStrides := [rowElements, dim, 1]
    sourceElements := totalElements
    resultElements := totalElements
    indexedSourceRows := 0
    indexedRowElements := 0
    rowIndices := []
    pooledTables, pooledBags := bags, pooledDim := dim }

end SymReloc
