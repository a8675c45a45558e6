import Mathlib.Data.Nat.Bitwise
import SymReloc.Runtime.Machine
import SymReloc.Runtime.PreparedProgram
import SymReloc.Runtime.TrustBoundary

/-!
# Binding a row selection

`bindIndexed` binds the three descriptors of a row-selection plan, takes the index
operand over and describes the selected rows as the identity layout of a matrix, so
that the typed executors can cut it into rows.

The index operand is decoded byte by byte or, on a little-endian host, by copying
whole words; both decoders give the same indices.
-/

namespace SymReloc

open Outcome

/-! ### Index operands -/

/-- The caller's index operand: `indexData` with its `indexDataBytes`. -/
structure IndexOperand where
  elementType : ElementType
  extents : List Int
  bytes : List UInt8
deriving DecidableEq, Repr

/-- `bits |= byte << 8 * b`, for the bytes from the `b`-th on. -/
def orBytes : Nat → List UInt8 → Nat → Nat
  | _, [], bits => bits
  | b, byte :: bytes, bits => orBytes (b + 1) bytes (bits ||| byte.toNat <<< (8 * b))

/-- The byte-wise decode. -/
def decodeBytewise (type : ElementType) (raw : List UInt8) (rowCount : Nat) :
    Outcome BindError (List Int) :=
  mapEach (List.range rowCount) fun i => do
    let element ← readParameter raw (i * byteWidth type) (byteWidth type)
    pure (signExtendBits (orBytes 0 element 0) type.bitwidth)

/-- The copy of whole words; on a little-endian host their bytes are the word's. -/
def copyWords (bits : Nat) (raw : List UInt8) (rowCount : Nat) : Outcome BindError (List Int) :=
  mapEach (List.range rowCount) fun i => do
    let element ← readParameter raw (i * (bits / 8)) (bits / 8)
    pure (BitVec.ofNat bits (leNat element)).toInt

/-- The indices of an operand, on a host of the given byte order. -/
def decodeIndices (littleEndian : Bool) (type : ElementType) (raw : List UInt8) (rowCount : Nat) :
    Outcome BindError (List Int) :=
  if littleEndian ∧ byteWidth type = 8 ∧ type.bitwidth = 64 then copyWords 64 raw rowCount
  else if littleEndian ∧ byteWidth type = 4 ∧ type.bitwidth = 32 then copyWords 32 raw rowCount
  else decodeBytewise type raw rowCount

theorem orBytes_eq {b bits : Nat} (h : bits < 2 ^ (8 * b)) (bytes : List UInt8) :
    orBytes b bytes bits = bits + 2 ^ (8 * b) * leNat bytes := by
  induction bytes generalizing b bits with
  | nil => rfl
  | cons byte bytes ih =>
      have hor : bits ||| byte.toNat <<< (8 * b) = bits + 2 ^ (8 * b) * byte.toNat := by
        rw [Nat.shiftLeft_eq, Nat.mul_comm, Nat.or_comm, ← Nat.two_pow_add_eq_or_of_lt h,
          Nat.add_comm]
      have hpow : 2 ^ (8 * (b + 1)) = 2 ^ (8 * b) * 256 := by rw [Nat.mul_succ, Nat.pow_add]
      have hbyte : 2 ^ (8 * b) * byte.toNat ≤ 2 ^ (8 * b) * 255 :=
        Nat.mul_le_mul_left _ (Nat.le_of_lt_succ byte.toNat_lt)
      rw [orBytes, hor, ih (by omega), hpow, leNat]
      ring

/-- Two's complement of a word, byte by byte and as a copy. -/
theorem toInt_ofNat_word {type : ElementType} {bits : Nat} (hbits : bits = 32 ∨ bits = 64)
    (htype : type.bitwidth = bits) {element : List UInt8} (hlength : element.length = bits / 8) :
    (BitVec.ofNat bits (leNat element)).toInt =
      signExtendBits (orBytes 0 element 0) type.bitwidth := by
  have hlt := leNat_lt element
  rw [hlength] at hlt
  rw [orBytes_eq (by decide), Nat.mul_zero, Nat.pow_zero, Nat.one_mul, Nat.zero_add,
    BitVec.toInt_ofNat', htype]
  rcases hbits with rfl | rfl
  · unfold signExtendBits Int.bmod
    norm_num at hlt ⊢
    omega
  · rw [signExtendBits, if_pos (le_refl 64), wrap64]

theorem readParameter_eq_ok {bytes element : List UInt8} {offset count : Nat} :
    readParameter bytes offset count = .ok element ↔
      offset + count ≤ bytes.length ∧ element = (bytes.drop offset).take count := by
  unfold readParameter
  split <;> simp [*, eq_comm]

theorem length_readParameter {bytes element : List UInt8} {offset count : Nat}
    (h : readParameter bytes offset count = .ok element) : element.length = count := by
  obtain ⟨hle, rfl⟩ := readParameter_eq_ok.mp h
  rw [List.length_take, List.length_drop]
  omega

/-- Every word of an operand of the right size lies inside its bytes. -/
theorem exists_decodeBytewise (type : ElementType) {raw : List UInt8} {rowCount : Nat}
    (h : raw.length = rowCount * byteWidth type) :
    ∃ rows, decodeBytewise type raw rowCount = .ok rows := by
  unfold decodeBytewise
  refine exists_mapEach fun i hi => ?_
  have hle : (i + 1) * byteWidth type ≤ rowCount * byteWidth type :=
    Nat.mul_le_mul_right _ (List.mem_range.mp hi)
  rw [Nat.add_mul, Nat.one_mul] at hle
  rw [readParameter, if_pos (by omega), ok_bind]
  exact ⟨_, rfl⟩

theorem copyWords_eq {type : ElementType} {bits : Nat} (hbits : bits = 32 ∨ bits = 64)
    (htype : type.bitwidth = bits) (raw : List UInt8) (rowCount : Nat) :
    copyWords bits raw rowCount = decodeBytewise type raw rowCount := by
  have hwidth : byteWidth type = bits / 8 := by
    unfold byteWidth
    rw [htype]
    rcases hbits with rfl | rfl <;> rfl
  unfold copyWords decodeBytewise
  rw [hwidth]
  congr 1
  funext i
  cases hread : readParameter raw (i * (bits / 8)) (bits / 8) with
  | ok element =>
      exact congrArg Outcome.ok (toInt_ofNat_word hbits htype (length_readParameter hread))
  | error reason => rfl
  | fault kind => rfl

/-- The decoders give the same indices. -/
theorem decodeIndices_eq (littleEndian : Bool) (type : ElementType) (raw : List UInt8)
    (rowCount : Nat) :
    decodeIndices littleEndian type raw rowCount = decodeBytewise type raw rowCount := by
  unfold decodeIndices
  split
  · exact copyWords_eq (.inr rfl) (by simp only [*]) raw rowCount
  · split
    · exact copyWords_eq (.inl rfl) (by simp only [*]) raw rowCount
    · rfl

/-! ### Bound row selections -/

/-- The plan of the selected rows, the extents of the source and the rows to select. -/
structure IndexedBoundPlan where
  selected : TypedBoundPlan
  sourceExtents : List Int
  indices : List Int
  rowElements : Int
deriving DecidableEq, Repr

/-- The rows keep their boundaries: a flattened layout would let a chunk split one. -/
def selectedLayout (count rowElements elements destinationBytes : Int) (elementSize : Nat) :
    BoundPlan where
  extents := [count, rowElements]
  srcStrides := [rowElements, 1]
  dstStrides := [rowElements, 1]
  perm := [0, 1]
  padRegions := []
  elementSize
  totalBytes := destinationBytes
  noCopy := false
  typed := true
  strategy := .auto
  L := elements
  requiredAlignments := []

/-- The one stage of a selection that converts; the static contract admits only bytes of a
    policy. -/
def selectedStage (plan : IndexedRelocationPlan) (shape : List Int) : BoundStage where
  transform := .cast
  policy := (NumericPolicyKind.bytes.ofByte? plan.policy).getD .ieeeRne
  input := ⟨plan.source.elementType, .signless⟩
  output := ⟨plan.result.elementType, .signless⟩
  shape
  axis := -1
  channel := none
  scale := none
  zeroPoint := none

def kIndexedOverflow : BindError := .refused "indexed tensor size overflow"

/-- `bindIndexed`, on a host of the given byte order. -/
def bindIndexed (littleEndian : Bool) (plan : IndexedRelocationPlan) (map : SymbolMap)
    (indices : IndexOperand) : Outcome BindError IndexedBoundPlan := do
  (validateIndexedPlan plan).mapError .refused
  let symbols ← resolveSymbols plan.symbols map
  let sourceExtents ← concreteDenseDescriptor plan.source symbols "source"
  let indexExtents ← concreteDenseDescriptor plan.indices symbols "indices"
  let resultExtents ← concreteDenseDescriptor plan.result symbols "result"
  require (indices.extents = indexExtents ∧ indices.elementType = plan.indices.elementType)
    (.refused "index operand dtype/extents do not match the plan")
  let count ← fetch indexExtents 0
  let sourceRows ← fetch sourceExtents 0
  let selectedShape := sourceExtents.set 0 count
  require (selectedShape = resultExtents)
    (.refused "indexed result shape does not match source and indices")
  let indexBytes ← checkedOr (count * byteWidth indices.elementType)
    (.refused "index operand byte size mismatch or overflow")
  require (toSize indexBytes = indices.bytes.length)
    (.refused "index operand byte size mismatch or overflow")
  let rowElements ← checkedProduct "indexed row size overflow" (sourceExtents.drop 1) 1
  let sourceType := plan.source.elementType
  let resultType := plan.result.elementType
  let physicalElements ← checkedOr (sourceRows * rowElements) kIndexedOverflow
  let _ ← checkedOr (physicalElements * byteWidth sourceType) kIndexedOverflow
  let elements ← checkedOr (count * rowElements) kIndexedOverflow
  let sourceBytes ← checkedOr (elements * byteWidth sourceType) kIndexedOverflow
  let destinationBytes ← checkedOr (elements * byteWidth resultType) kIndexedOverflow
  let rows ← decodeIndices littleEndian indices.elementType indices.bytes count.toNat
  require (∀ row ∈ rows, 0 ≤ row ∧ row < sourceRows)
    (.refused "index_out_of_range: index_select row is outside the source")
  let converts := sourceType ≠ resultType
  pure {
    selected := {
      layout := selectedLayout count rowElements elements destinationBytes (byteWidth resultType)
      sourceExtents := selectedShape
      resultExtents, sourceType, resultType, symbols
      stages := if converts then [selectedStage plan selectedShape] else []
      fills := []
      cuts := ⟨0, sourceType, elements, sourceBytes⟩ ::
        if converts then [⟨1, resultType, elements, destinationBytes⟩] else []
      sourceBytes, destinationBytes
      parameterBytes := indexBytes
      requirements := ["host_index_select"] }
    sourceExtents, indices := rows, rowElements }

/-- The byte order of the host makes no difference. -/
theorem bindIndexed_eq (littleEndian : Bool) (plan : IndexedRelocationPlan) (map : SymbolMap)
    (operand : IndexOperand) :
    bindIndexed littleEndian plan map operand = bindIndexed false plan map operand := by
  simp only [bindIndexed, decodeIndices_eq]

/-! ### What binding establishes -/

/-- The index operand holds these rows, as two's complement words. -/
def IndexOperand.Holds (operand : IndexOperand) (rows : List Int) : Prop :=
  (operand.bytes.length : Int) = rows.length * byteWidth operand.elementType ∧
    ∀ i row, rows[i]? = some row → row = signExtendBits (leNat ((operand.bytes.drop
      (i * byteWidth operand.elementType)).take (byteWidth operand.elementType)))
      operand.elementType.bitwidth

/-- A bound selection of rows of a source with `sourceRows` rows of the given shape. -/
structure IndexedBoundPlan.Selects (bound : IndexedBoundPlan) (plan : IndexedRelocationPlan)
    (operand : IndexOperand) (sourceRows : Int) (rowShape : List Int) : Prop where
  supported : plan.supported
  source : bound.sourceExtents = sourceRows :: rowShape
  extents : 1 ≤ sourceRows ∧ ∀ extent ∈ rowShape, 1 ≤ extent
  row : bound.rowElements = rowShape.prod
  nonempty : bound.indices ≠ []
  shape : bound.selected.sourceExtents = (bound.indices.length : Int) :: rowShape ∧
    bound.selected.resultExtents = (bound.indices.length : Int) :: rowShape
  types : bound.selected.sourceType = plan.source.elementType ∧
    bound.selected.resultType = plan.result.elementType
  held : operand.Holds bound.indices
  counted : (bound.indices.length : Int) * 4 < 2 ^ 63
  inside : ∀ row ∈ bound.indices, 0 ≤ row ∧ row < sourceRows
  physical : FitsI64 (sourceRows * rowShape.prod * byteWidth plan.source.elementType)
  sourceBytes : bound.selected.sourceBytes =
    bound.indices.length * rowShape.prod * byteWidth plan.source.elementType
  destinationBytes : bound.selected.destinationBytes =
    bound.indices.length * rowShape.prod * byteWidth plan.result.elementType
  fits : FitsI64 bound.selected.sourceBytes ∧ FitsI64 bound.selected.destinationBytes
  layout : bound.selected.layout = selectedLayout bound.indices.length rowShape.prod
    (bound.indices.length * rowShape.prod) bound.selected.destinationBytes
    (byteWidth plan.result.elementType)
  stages : bound.selected.stages =
    if plan.source.elementType = plan.result.elementType then []
    else [selectedStage plan bound.selected.sourceExtents]
  fills : bound.selected.fills = []

theorem holds_of_decodeBytewise {operand : IndexOperand} {rowCount : Nat} {rows : List Int}
    (hbytes : operand.bytes.length = rowCount * byteWidth operand.elementType)
    (h : decodeBytewise operand.elementType operand.bytes rowCount = .ok rows) :
    rows.length = rowCount ∧ operand.Holds rows := by
  have hrows : rows = (List.range rowCount).map fun i => signExtendBits (leNat ((operand.bytes.drop
      (i * byteWidth operand.elementType)).take (byteWidth operand.elementType)))
        operand.elementType.bitwidth := by
    refine eq_map_of_mapEach h fun i _ row hrow => ?_
    simp only [bind_ok_iff, pure_eq, Outcome.ok.injEq] at hrow
    obtain ⟨element, hread, rfl⟩ := hrow
    obtain ⟨-, rfl⟩ := readParameter_eq_ok.mp hread
    rw [orBytes_eq (by decide), Nat.mul_zero, Nat.pow_zero, Nat.one_mul, Nat.zero_add]
  subst hrows
  have hlength : ((List.range rowCount).map fun i => signExtendBits (leNat ((operand.bytes.drop
      (i * byteWidth operand.elementType)).take (byteWidth operand.elementType)))
        operand.elementType.bitwidth).length = rowCount := by
    rw [List.length_map, List.length_range]
  refine ⟨hlength, by rw [hbytes, hlength, Nat.cast_mul], fun i row hrow => ?_⟩
  rw [List.getElem?_map, Option.map_eq_some_iff] at hrow
  obtain ⟨j, hj, rfl⟩ := hrow
  obtain ⟨-, rfl⟩ := List.getElem?_eq_some_iff.mp hj
  rw [List.getElem_range]

theorem bindIndexed_selects {littleEndian : Bool} {plan : IndexedRelocationPlan} {map : SymbolMap}
    {operand : IndexOperand} {bound : IndexedBoundPlan}
    (h : bindIndexed littleEndian plan map operand = .ok bound) :
    ∃ sourceRows rowShape, bound.Selects plan operand sourceRows rowShape := by
  simp only [bindIndexed, bind_ok_iff, exists_unit, mapError_eq_ok, validateIndexedPlan_eq_ok,
    require_eq_ok, fetch_eq_ok, checkedOr_eq_ok, pure_eq, Outcome.ok.injEq] at h
  obtain ⟨hvalid, symbols, -, sourceExtents, hsource, indexExtents, hindex, resultExtents, -,
    ⟨-, htype⟩, count, hcount, sourceRows, hrows, hshape, _, ⟨hfits, rfl⟩, hbytes, rowElements,
    hrow,
    _, ⟨-, rfl⟩, _, ⟨hphysical, -⟩, _, ⟨-, rfl⟩, _, ⟨hsourceBytes, rfl⟩, _, ⟨hdestination, rfl⟩,
    rows, hdecode, hinside, rfl⟩ := h
  obtain ⟨-, hpos⟩ := concreteDenseDescriptor_eq_ok hsource
  obtain ⟨-, hcounts⟩ := concreteDenseDescriptor_eq_ok hindex
  have hone : 1 ≤ count := hcounts count (List.mem_of_getElem? hcount)
  cases sourceExtents with
  | nil => cases hrows
  | cons first rowShape =>
      obtain rfl : first = sourceRows := by simpa using hrows
      rw [List.forall_mem_cons] at hpos
      have hrowElements := checkedProduct_eq_ok hrow
      rw [List.drop_succ_cons, List.drop_zero, one_mul] at hrowElements
      subst hrowElements
      have hsize : operand.bytes.length = count.toNat * byteWidth operand.elementType := by
        have := toSize_of_nonneg (mul_nonneg (by omega) (Int.natCast_nonneg _)) hfits
        rw [hbytes] at this
        have hcast : ((count.toNat : Nat) : Int) = count := Int.toNat_of_nonneg (by omega)
        rw [← hcast] at this
        exact_mod_cast this
      rw [decodeIndices_eq] at hdecode
      obtain ⟨hlength, hheld⟩ := holds_of_decodeBytewise hsize hdecode
      have hcast : (rows.length : Int) = count := by
        rw [hlength]
        exact Int.toNat_of_nonneg (by omega)
      have hword : (4 : Int) ≤ byteWidth operand.elementType := by
        rw [htype]
        rcases hvalid.index.2.2.2 with h | h <;> simp [byteWidth, h]
      have hcounted : (rows.length : Int) * 4 < 2 ^ 63 := by
        rw [hcast]
        exact lt_of_le_of_lt (mul_le_mul_of_nonneg_left hword (by omega)) hfits.2
      refine ⟨first, rowShape, hvalid.supported, rfl, hpos, rfl, ?_, ?_, ⟨rfl, rfl⟩, hheld,
        hcounted, hinside, hphysical, ?_, ?_, ⟨hsourceBytes, hdestination⟩, ?_, ?_, rfl⟩
      · intro (hnil : rows = [])
        rw [hnil, List.length_nil, Nat.cast_zero] at hcast
        omega
      · simp only [hcast]
        exact ⟨rfl, hshape.symm⟩
      · simp only [hcast]
      · simp only [hcast]
      · simp only [hcast]
      · by_cases hsame : plan.source.elementType = plan.result.elementType
        · rw [if_pos hsame, if_neg (not_not.mpr hsame)]
        · rw [if_neg hsame, if_pos hsame]

/-- Binding stays inside its vectors, and none of its sizes overflows. -/
theorem safe_bindIndexed {plan : IndexedRelocationPlan} (hplan : plan.WellFormed)
    (littleEndian : Bool) (map : SymbolMap) (operand : IndexOperand) :
    (bindIndexed littleEndian plan map operand).Safe := by
  have hdesc : ∀ desc ∈ [plan.source, plan.indices, plan.result], ∀ symbols what,
      resolveSymbols plan.symbols map = .ok symbols →
        (concreteDenseDescriptor desc symbols what).Safe := by
    intro desc hmem symbols what hsymbols
    have hlength := ensures_resolveSymbols plan.symbols map
    rw [hsymbols, ensures_ok] at hlength
    have hwf : desc.WellFormed plan.symbols.length := by
      simp only [List.mem_cons, List.not_mem_nil, or_false] at hmem
      rcases hmem with rfl | rfl | rfl
      · exact hplan.sections.source
      · exact hplan.sections.indices
      · exact hplan.sections.result
    exact safe_iff.mpr (ensures_concreteDenseDescriptor hwf hlength what).not_fault
  unfold bindIndexed
  refine safe_bind (safe_mapError.mpr (safe_validateIndexedPlan plan)) fun _ => sat_bind.mpr ?_
  refine (safe_iff.mpr (ensures_resolveSymbols plan.symbols map).not_fault).sat_of_ok
    fun symbols hsymbols => sat_bind.mpr ?_
  refine (hdesc _ (by simp) symbols "source" hsymbols).sat_of_ok fun source hsource =>
    sat_bind.mpr ?_
  refine (hdesc _ (by simp) symbols "indices" hsymbols).sat_of_ok fun index hindex =>
    sat_bind.mpr ?_
  refine (hdesc _ (by simp) symbols "result" hsymbols).sat_of_ok fun result _ => ?_
  obtain ⟨hsourceRank, -⟩ := concreteDenseDescriptor_eq_ok hsource
  obtain ⟨hindexRank, hcounts⟩ := concreteDenseDescriptor_eq_ok hindex
  obtain ⟨count, rest, rfl⟩ := List.exists_cons_of_ne_nil hindexRank
  refine sat_require_bind.mpr fun _ => sat_fetch_bind (by simp) ?_
  refine sat_fetch_bind (List.length_pos_iff.mpr hsourceRank) (sat_require_bind.mpr fun _ => ?_)
  have hone : 1 ≤ count := hcounts count List.mem_cons_self
  rw [List.getElem_cons_zero]
  refine sat_checkedOr_bind fun hfits => sat_require_bind.mpr fun hbytes => ?_
  refine safe_bind (safe_iff.mpr (ensures_checkedProduct _ _ _).not_fault) fun rowElements => ?_
  refine sat_checkedOr_bind fun _ => sat_checkedOr_bind fun _ => sat_checkedOr_bind fun _ =>
    sat_checkedOr_bind fun _ => sat_checkedOr_bind fun _ => ?_
  refine safe_bind ?_ fun rows => sat_require_bind.mpr fun _ => trivial
  have hsize := toSize_of_nonneg (mul_nonneg (by omega) (Int.natCast_nonneg _)) hfits
  rw [hbytes, ← Int.toNat_of_nonneg (show 0 ≤ count by omega)] at hsize
  obtain ⟨rows, hrows⟩ := exists_decodeBytewise operand.elementType
    (show operand.bytes.length = count.toNat * _ by exact_mod_cast hsize)
  rw [decodeIndices_eq, hrows]
  trivial

end SymReloc
