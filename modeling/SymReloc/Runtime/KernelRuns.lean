import SymReloc.Runtime.PreparedProgram
import SymReloc.Runtime.TypedExecute

/-!
# What the kernels write

The channel a kernel computes from a destination offset is the coordinate the walker
takes there, and it stays the same over a buffer.  So a buffered run writes every
element with the value of the walker, whatever the pieces it is cut into.
-/

namespace SymReloc

open Outcome Writes

/-! ### Result coordinates -/

theorem le_prod_of_mem {extents : List Int} (h : ∀ extent ∈ extents, 1 ≤ extent) {extent : Int}
    (hmem : extent ∈ extents) : extent ≤ extents.prod := by
  induction extents with
  | nil => cases hmem
  | cons first rest ih =>
      rw [List.forall_mem_cons] at h
      have hrest := one_le_prod h.2
      rw [List.prod_cons]
      rcases List.mem_cons.mp hmem with rfl | hmem
      · exact le_mul_of_one_le_right (by omega) hrest
      · exact (ih h.2 hmem).trans (le_mul_of_one_le_left (by omega) h.1)

/-- A stride of the result, with its extent, divides the number of elements. -/
theorem rowMajorStrides_getElem? {extents : List Int} (h : ∀ extent ∈ extents, 1 ≤ extent) {j : Nat}
    {extent : Int} (hj : extents[j]? = some extent) :
    ∃ stride, (rowMajorStrides extents)[j]? = some stride ∧ 1 ≤ stride ∧
      ∃ others, extents.prod = stride * extent * others := by
  induction extents generalizing j with
  | nil => simp at hj
  | cons first rest ih =>
      rw [List.forall_mem_cons] at h
      cases j with
      | zero =>
          obtain rfl : first = extent := by simpa using hj
          exact ⟨rest.prod, rfl, one_le_prod h.2, 1, by rw [List.prod_cons]; ring⟩
      | succ j =>
          obtain ⟨stride, hstride, hpos, others, hothers⟩ := ih h.2 hj
          exact ⟨stride, hstride, hpos, first * others, by rw [List.prod_cons, hothers]; ring⟩

/-- The coordinate of an offset inside the result. -/
theorem coordsOf_getElem? {extents : List Int} (h : ∀ extent ∈ extents, 1 ≤ extent) {d : Int}
    (hd : 0 ≤ d ∧ d < extents.prod) {j : Nat} {extent stride : Int}
    (hextent : extents[j]? = some extent) (hstride : (rowMajorStrides extents)[j]? = some stride) :
    (coordsOf (rowMajorStrides extents) d)[j]? = some (d / stride % extent) := by
  induction extents generalizing j d with
  | nil => simp at hextent
  | cons first rest ih =>
      rw [List.forall_mem_cons] at h
      have hpos := one_le_prod h.2
      rw [rowMajorStrides, coordsOf, Int.tdiv_eq_ediv_of_nonneg hd.1]
      cases j with
      | zero =>
          obtain rfl : first = extent := by simpa using hextent
          obtain rfl : rest.prod = stride := by simpa [rowMajorStrides] using hstride
          rw [List.prod_cons] at hd
          have hlt : d / rest.prod < first := Int.ediv_lt_of_lt_mul (by omega) hd.2
          rw [List.getElem?_cons_zero, Int.emod_eq_of_lt (Int.ediv_nonneg hd.1 (by omega)) hlt]
      | succ j =>
          have hextent' : rest[j]? = some extent := hextent
          have hstride' : (rowMajorStrides rest)[j]? = some stride := hstride
          obtain ⟨stride', hget, hstridePos, others, hothers⟩ :=
            rowMajorStrides_getElem? h.2 hextent'
          cases hstride'.symm.trans hget
          have hrest : d - d / rest.prod * rest.prod = d % rest.prod := by
            rw [Int.emod_def]
            ring
          rw [List.getElem?_cons_succ, hrest, ih h.2 ⟨Int.emod_nonneg d (by omega),
            Int.emod_lt_of_pos d (by omega)⟩ hextent' hstride']
          -- the outer coordinate is a multiple of the stride and of the extent
          have hsplit : d % rest.prod = d + stride * (extent * -(others * (d / rest.prod))) := by
            rw [Int.emod_def, hothers]
            ring
          rw [hsplit, Int.add_mul_ediv_left _ _ (by omega), Int.add_mul_emod_self_left]

/-- Offsets of one block of a stride have the same quotient. -/
theorem ediv_add_of_lt {d i stride : Int} (hstride : 1 ≤ stride) (hi : 0 ≤ i)
    (hlt : i < stride - d % stride) : (d + i) / stride = d / stride := by
  have hmod := Int.emod_nonneg d (show stride ≠ 0 by omega)
  have hsum : d + i = d % stride + i + stride * (d / stride) := by
    have := Int.emod_add_mul_ediv d stride
    omega
  rw [hsum, Int.add_mul_ediv_left _ _ (by omega), Int.ediv_eq_zero_of_lt (by omega) (by omega),
    zero_add]

/-! ### Channels -/

namespace Program

variable {program : Program} {plan : TypedRelocationPlan}

/-- The value of an element through a range, with the channels of the kernels. -/
def rangeValue (program : Program) (range : List (StageArithmetic × Nat)) (offset : Int)
    (bits : Nat) : Nat :=
  range.foldl (fun bits entry => applyStage entry.1 bits (program.kernelChannel entry.1 offset))
    bits

/-- The channels of a range are coordinates of the result that have parameters. -/
structure Simple (program : Program) (range : List (StageArithmetic × Nat)) : Prop where
  sound : ∀ entry ∈ range, entry.1.Sound
  dims : ∀ entry ∈ range, entry.1.perChannel = true → entry.1.channelIsDim = true ∧
    ∃ stride extent, program.resultStrides[entry.1.channelDim]? = some stride ∧
      program.plan.resultExtents[entry.1.channelDim]? = some extent ∧ 1 ≤ stride ∧ 1 ≤ extent ∧
      extent ≤ entry.1.channelLength

theorem Simple.tail {entry : StageArithmetic × Nat} {range : List (StageArithmetic × Nat)}
    (h : program.Simple (entry :: range)) : program.Simple range :=
  ⟨fun e he => h.sound e (by simp [he]), fun e he => h.dims e (by simp [he])⟩

/-- The channel of the kernels has parameters. -/
theorem Simple.kernelChannel_mem {range : List (StageArithmetic × Nat)} (h : program.Simple range)
    {entry : StageArithmetic × Nat} (hmem : entry ∈ range) {offset : Int} (hoffset : 0 ≤ offset) :
    0 ≤ program.kernelChannel entry.1 offset ∧
      program.kernelChannel entry.1 offset < entry.1.channelLength := by
  unfold kernelChannel
  by_cases hchannel : entry.1.perChannel = true
  · obtain ⟨-, stride, extent, hstride, hextent, hstridePos, hextentPos, hle⟩ :=
      h.dims entry hmem hchannel
    rw [if_pos hchannel, channelStride, channelExtent, List.getD_eq_getElem?_getD, hstride,
      List.getD_eq_getElem?_getD, hextent, Option.getD_some, Option.getD_some,
      Int.tdiv_eq_ediv_of_nonneg hoffset,
      Int.tmod_eq_emod_of_nonneg (Int.ediv_nonneg hoffset (by omega))]
    have := Int.emod_nonneg (offset / stride) (show extent ≠ 0 by omega)
    have := Int.emod_lt_of_pos (offset / stride) (show 0 < extent by omega)
    omega
  · rw [if_neg hchannel, (h.sound entry hmem).one (by simpa using hchannel)]
    decide

/-- The walker takes the channel of the kernels inside the result. -/
theorem Simple.channelAt_eq {range : List (StageArithmetic × Nat)} (h : program.Simple range)
    (hstrides : program.resultStrides = rowMajorStrides program.plan.resultExtents)
    (hextents : ∀ extent ∈ program.plan.resultExtents, 1 ≤ extent)
    {entry : StageArithmetic × Nat} (hmem : entry ∈ range) {d : Int}
    (hd : 0 ≤ d ∧ d < program.plan.resultExtents.prod) :
    channelAt program (coordsOf program.resultStrides d) entry.1 entry.2 =
      .ok (program.kernelChannel entry.1 d) := by
  have hrange := h.kernelChannel_mem hmem hd.1
  unfold channelAt
  by_cases hchannel : entry.1.perChannel = true
  · obtain ⟨hdim, stride, extent, hstride, hextent, hstridePos, hextentPos, -⟩ :=
      h.dims entry hmem hchannel
    have hvalue : program.kernelChannel entry.1 d = d / stride % extent := by
      rw [kernelChannel, if_pos hchannel, channelStride, channelExtent,
        List.getD_eq_getElem?_getD, hstride, List.getD_eq_getElem?_getD, hextent,
        Option.getD_some, Option.getD_some, Int.tdiv_eq_ediv_of_nonneg hd.1,
        Int.tmod_eq_emod_of_nonneg (Int.ediv_nonneg hd.1 (by omega))]
    have hcoord := coordsOf_getElem? hextents hd hextent (hstrides ▸ hstride)
    rw [← hvalue, ← hstrides] at hcoord
    rw [if_pos hchannel, selectChannel, if_pos hdim, fetch_eq_ok.mpr hcoord, ok_bind,
      require, if_pos hrange, ok_bind, pure_eq]
  · rw [if_neg hchannel, kernelChannel, if_neg hchannel]

theorem Simple.applyRange_eq {range : List (StageArithmetic × Nat)} (h : program.Simple range)
    (hstrides : program.resultStrides = rowMajorStrides program.plan.resultExtents)
    (hextents : ∀ extent ∈ program.plan.resultExtents, 1 ≤ extent) {d : Int}
    (hd : 0 ≤ d ∧ d < program.plan.resultExtents.prod) (bits : Nat) :
    applyRange program (coordsOf program.resultStrides d) range bits =
      .ok (program.rangeValue range d bits) := by
  induction range generalizing bits with
  | nil => rfl
  | cons entry rest ih =>
      obtain ⟨stage, k⟩ := entry
      have hchannel := h.channelAt_eq hstrides hextents (List.mem_cons_self (a := (stage, k))) hd
      rw [applyRange, hchannel, ok_bind, ih h.tail]
      rfl

end Program

/-! ### One buffer -/

theorem fetchAt_eq {α : Type} {values : List α} {index : Int} (default : α)
    (h : 0 ≤ index ∧ index < values.length) :
    fetchAt values index = .ok (values.getD index.toNat default) := by
  have hlt : index.toNat < values.length := by omega
  rw [fetchAt, if_neg (by omega), fetch_of_lt hlt, List.getD_eq_getElem?_getD,
    List.getElem?_eq_getElem hlt, Option.getD_some]

theorem bufferArray_of_f32 {type : ElementType} (h : isFloatWidth type 32) :
    bufferArray type = .f32 := by
  simp [bufferArray, h.1, h.2]

theorem bufferArray_of_half {type : ElementType} (h : isFloatWidth type 16 ∨ isBFloat16 type) :
    bufferArray type = .f16 := by
  rcases h with h | h <;> simp [bufferArray, h.1, h.2]

theorem bufferArray_of_int8 {type : ElementType} (h : isInt8 type) : bufferArray type = .s8 := by
  simp [bufferArray, h.1]

/-- A stage of the kernels is `applyStage` on every value of the buffer. -/
theorem kernelStage_eq {stage : StageArithmetic} (hsound : stage.Sound) {channel : Int}
    (hchannel : 0 ≤ channel ∧ channel < stage.channelLength)
    (hbare : stage.perChannel = false → channel = 0) (values : List Nat) :
    kernelStage stage channel ⟨bufferArray stage.input, values⟩ =
      .ok ⟨bufferArray stage.output, values.map fun bits => applyStage stage bits channel⟩ := by
  have htyped := hsound.typed
  have hsized := hsound.sized
  have hindex : (if stage.perChannel = true then channel.toNat else 0) = channel.toNat := by
    by_cases hflag : stage.perChannel = true
    · rw [if_pos hflag]
    · rw [if_neg hflag, hbare (by simpa using hflag), Int.toNat_zero]
  unfold StageArithmetic.Typed at htyped
  unfold StageArithmetic.Sized at hsized
  unfold kernelStage applyStage
  cases htransform : stage.transform with
  | cast =>
      simp only [htransform] at htyped ⊢
      rcases htyped with ⟨hin, hout⟩ | ⟨hin, hout⟩
      · rw [if_pos hin.2, bufferArray_of_f32 hin, bufferArray_of_half hout, Buffer.read,
          if_pos rfl, ok_bind, pure_eq]
        rcases hout with hout | hout
        · simp [hin, hout.1, isBFloat16]
        · simp [hin, hout.1, hout]
      · have hwidth : ¬ stage.input.bitwidth = 32 := by
          rcases hin with hin | hin
          · rw [hin.2]
            decide
          · rw [hin.2]
            decide
        have hfloat : ¬ isFloatWidth stage.input 32 := fun h => hwidth h.2
        rw [if_neg hwidth, bufferArray_of_half hin, bufferArray_of_f32 hout, Buffer.read,
          if_pos rfl, ok_bind, pure_eq]
        rcases hin with hin | hin
        · simp [hfloat, hin.1, isBFloat16]
        · simp [hfloat, hin.1, hin]
  | quantize =>
      simp only [htransform] at htyped hsized ⊢
      rw [bufferArray_of_f32 htyped.1, bufferArray_of_int8 htyped.2, Buffer.read, if_pos rfl,
        ok_bind, fetchAt_eq 0 (by omega), ok_bind, pure_eq, hindex]
  | dequantize =>
      simp only [htransform] at htyped hsized ⊢
      have hzero : fetchAt stage.zeroPoint (if stage.zeroPoint.length = 1 then 0 else channel) =
          .ok (if stage.zeroPoint.length = 1 then stage.zeroPoint.getD 0 0
            else stage.zeroPoint.getD channel.toNat 0) := by
        by_cases hone : stage.zeroPoint.length = 1
        · rw [if_pos hone, if_pos hone]
          exact fetchAt_eq 0 (by omega)
        · rw [if_neg hone, if_neg hone]
          exact fetchAt_eq 0 (by omega)
      rw [bufferArray_of_int8 htyped.1, bufferArray_of_f32 htyped.2, Buffer.read, if_pos rfl,
        ok_bind, fetchAt_eq 0 (by omega), ok_bind, hzero, ok_bind, pure_eq, hindex]

/-- The stages of a range lead from one type to another. -/
def RangeChain : ElementType → List (StageArithmetic × Nat) → ElementType → Prop
  | type, [], last => type = last
  | type, entry :: rest, last => entry.1.input = type ∧ RangeChain entry.1.output rest last

namespace Program

variable {program : Program}

theorem Simple.bufferStages_eq {range : List (StageArithmetic × Nat)} (h : program.Simple range)
    {type last : ElementType} (hchain : RangeChain type range last) {offset : Int}
    (hoffset : 0 ≤ offset) (values : List Nat) :
    program.bufferStages offset range ⟨bufferArray type, values⟩ =
      .ok ⟨bufferArray last, values.map (program.rangeValue range offset)⟩ := by
  induction range generalizing type values with
  | nil =>
      obtain rfl : type = last := hchain
      have hid : program.rangeValue [] offset = id := rfl
      rw [bufferStages, hid, List.map_id]
  | cons entry rest ih =>
      obtain ⟨stage, k⟩ := entry
      obtain ⟨hinput, hrest⟩ := hchain
      have hmem : (stage, k) ∈ (stage, k) :: rest := List.mem_cons_self
      have hbare : stage.perChannel = false → program.kernelChannel stage offset = 0 := by
        intro hflag
        rw [kernelChannel, hflag, if_neg (by decide)]
      rw [bufferStages, ← hinput, kernelStage_eq (h.sound _ hmem)
        (h.kernelChannel_mem hmem hoffset) hbare, ok_bind, ih h.tail hrest, List.map_map]
      rfl

/-! ### Pieces of a run -/

/-- A buffer takes an element, at most what is left, and ends before a channel does. -/
theorem Simple.pieceLength_spec {range : List (StageArithmetic × Nat)} (h : program.Simple range)
    {offset left : Int} (hoffset : 0 ≤ offset) (hleft : 1 ≤ left) :
    1 ≤ program.pieceLength range offset left ∧ program.pieceLength range offset left ≤ left ∧
      ∀ entry ∈ range, entry.1.perChannel = true → program.pieceLength range offset left ≤
        program.channelStride entry.1 - offset % program.channelStride entry.1 := by
  unfold pieceLength
  have hstart : 1 ≤ min kTypedRun left ∧ min kTypedRun left ≤ left := by
    unfold kTypedRun
    omega
  generalize min kTypedRun left = n at hstart
  -- the bound of every stage seen so far is kept by later minima
  suffices hall : ∀ (n : Int), 1 ≤ n →
      1 ≤ range.foldl (fun n entry => if entry.1.perChannel = true then
        min n (program.channelStride entry.1 - offset.tmod (program.channelStride entry.1))
        else n) n ∧
      range.foldl (fun n entry => if entry.1.perChannel = true then
        min n (program.channelStride entry.1 - offset.tmod (program.channelStride entry.1))
        else n) n ≤ n ∧
      ∀ entry ∈ range, entry.1.perChannel = true →
        range.foldl (fun n entry => if entry.1.perChannel = true then
          min n (program.channelStride entry.1 - offset.tmod (program.channelStride entry.1))
          else n) n ≤ program.channelStride entry.1 - offset % program.channelStride entry.1 by
    obtain ⟨hpos, hle, hbound⟩ := hall n hstart.1
    exact ⟨hpos, hle.trans hstart.2, hbound⟩
  induction range with
  | nil => exact fun n hn => ⟨hn, le_refl n, by simp⟩
  | cons entry rest ih =>
      intro n hn
      rw [List.foldl_cons]
      by_cases hchannel : entry.1.perChannel = true
      · obtain ⟨-, stride, extent, hstride, -, hpos, -⟩ := h.dims entry (by simp) hchannel
        have hvalue : program.channelStride entry.1 = stride := by
          rw [channelStride, List.getD_eq_getElem?_getD, hstride, Option.getD_some]
        have hmod := Int.emod_lt_of_pos offset (show 0 < stride by omega)
        rw [if_pos hchannel, hvalue, Int.tmod_eq_emod_of_nonneg hoffset]
        obtain ⟨hone, hle, hbound⟩ := ih h.tail (min n (stride - offset % stride)) (by omega)
        refine ⟨hone, hle.trans (min_le_left _ _), fun other hother hflag => ?_⟩
        rcases List.mem_cons.mp hother with rfl | hmem
        · rw [hvalue]
          exact hle.trans (min_le_right _ _)
        · exact hbound other hmem hflag
      · rw [if_neg hchannel]
        obtain ⟨hone, hle, hbound⟩ := ih h.tail n hn
        refine ⟨hone, hle, fun other hother hflag => ?_⟩
        rcases List.mem_cons.mp hother with rfl | hmem
        · exact absurd hflag hchannel
        · exact hbound other hmem hflag

/-- Within a piece the channels are those of its first element. -/
theorem Simple.rangeValue_eq {range : List (StageArithmetic × Nat)} (h : program.Simple range)
    {offset i : Int} (hoffset : 0 ≤ offset) (hi : 0 ≤ i)
    (hlt : ∀ entry ∈ range, entry.1.perChannel = true →
      i < program.channelStride entry.1 - offset % program.channelStride entry.1) (bits : Nat) :
    program.rangeValue range (offset + i) bits = program.rangeValue range offset bits := by
  unfold rangeValue
  refine List.foldl_ext _ _ _ fun bits entry hmem => ?_
  congr 1
  unfold kernelChannel
  by_cases hchannel : entry.1.perChannel = true
  · obtain ⟨-, stride, extent, hstride, -, hpos, -⟩ := h.dims entry hmem hchannel
    have hvalue : program.channelStride entry.1 = stride := by
      rw [channelStride, List.getD_eq_getElem?_getD, hstride, Option.getD_some]
    have hbound := hlt entry hmem hchannel
    rw [hvalue] at hbound
    rw [if_pos hchannel, if_pos hchannel, hvalue,
      Int.tdiv_eq_ediv_of_nonneg (show 0 ≤ offset + i by omega),
      Int.tdiv_eq_ediv_of_nonneg hoffset, ediv_add_of_lt hpos hi hbound]
  · rw [if_neg hchannel, if_neg hchannel]

end Program

/-! ### Runs -/

theorem intRange_shift (lo n : Int) :
    intRange lo (lo + n) = (intRange 0 n).map fun i => lo + i := by
  simp only [intRange, List.map_map, add_sub_cancel_left, sub_zero]
  refine List.map_congr_left fun k _ => ?_
  simp

theorem intRange_append {lo hi : Int} (middle : Int) (hlo : lo ≤ middle) (hhi : middle ≤ hi) :
    intRange lo hi = intRange lo middle ++ intRange middle hi := by
  obtain ⟨m, rfl⟩ := Int.le.dest hlo
  obtain ⟨n, rfl⟩ := Int.le.dest hhi
  have hsum : (lo + m + n - lo).toNat = m + n := by omega
  have hleft : (lo + m - lo).toNat = m := by omega
  have hright : (lo + m + n - (lo + m)).toNat = n := by omega
  rw [intRange, intRange, intRange, hsum, hleft, hright, List.range_add, List.map_append,
    List.map_map]
  congr 1
  refine List.map_congr_left fun k _ => ?_
  simp only [Function.comp_apply, Nat.cast_add]
  ring

theorem intRange_of_le {lo hi : Int} (h : hi ≤ lo) : intRange lo hi = [] := by
  simp [intRange, Int.toNat_of_nonpos (sub_nonpos.mpr h)]

/-- The types at the ends of a walk's stage range, and the stages between them. -/
structure WalkState.Buffered (state : WalkState) (inType outType : ElementType) : Prop where
  simple : state.program.Simple state.range
  first : state.program.typeAt state.fromStage = .ok inType
  last : state.program.typeAt state.toStage = .ok outType
  chain : RangeChain inType state.range outType
  inWidth : (bufferArray inType).width = state.widthFrom
  outWidth : (bufferArray outType).width = state.widthTo

namespace WalkState

variable {state : WalkState} {inType outType : ElementType}

/-- An element as the kernels write it. -/
def target (state : WalkState) (offset : Int) (bits : Nat) : CellWrite :=
  state.storeBits offset (state.program.rangeValue state.range offset bits)

theorem Buffered.piece_eq (h : state.Buffered inType outType) (input : Int → Nat)
    {offset start n : Int} (hoffset : 0 ≤ offset + start)
    (hn : ∀ entry ∈ state.range, entry.1.perChannel = true → n ≤
      state.program.channelStride entry.1 -
        (offset + start) % state.program.channelStride entry.1) :
    state.piece input offset start n =
      .ok ((intRange start (start + n)).map fun i => state.target (offset + i) (input i)) := by
  rw [piece, h.first, ok_bind, h.last, ok_bind, if_pos ⟨h.inWidth, h.outWidth⟩]
  dsimp only
  rw [h.simple.bufferStages_eq h.chain hoffset, ok_bind, Buffer.read, if_pos rfl, ok_bind, pure_eq,
    List.map_map, List.zipWith_map_right, List.zipWith_self, intRange_shift, List.map_map]
  congr 1
  refine List.map_congr_left fun i hi => ?_
  rw [mem_intRange] at hi
  have hvalue := h.simple.rangeValue_eq hoffset hi.1
    (fun entry hentry hflag => hi.2.trans_le (hn entry hentry hflag)) (input (start + i))
  rw [add_assoc] at hvalue
  simp only [Function.comp_apply, target, hvalue, add_assoc]

theorem Buffered.pieces_eq (h : state.Buffered inType outType) (input : Int → Nat)
    {count offset : Int} (hoffset : 0 ≤ offset) {fuel : Nat} {start : Int} (hstart : 0 ≤ start)
    (hfuel : count ≤ start + fuel) :
    state.pieces input count offset fuel start =
      .ok ((intRange start count).map fun i => state.target (offset + i) (input i)) := by
  induction fuel generalizing start with
  | zero => rw [pieces, intRange_of_le (by omega), List.map_nil]
  | succ fuel ih =>
      rw [pieces]
      by_cases hlt : start < count
      · have hat : 0 ≤ offset + start := by omega
        have hleft : 1 ≤ count - start := by omega
        obtain ⟨hpos, hle, hbound⟩ := h.simple.pieceLength_spec hat hleft
        rw [if_pos hlt]
        dsimp only
        generalize state.program.pieceLength state.range (offset + start) (count - start) = n
          at hpos hle hbound
        rw [h.piece_eq input hat hbound, ok_bind, ih (by omega) (by omega), ok_bind, pure_eq,
          intRange_append (start + n) (show start ≤ start + n by omega)
            (show start + n ≤ count by omega), List.map_append]
      · rw [if_neg hlt, intRange_of_le (by omega), List.map_nil]

/-- A contiguous run writes every element with the value of the walker. -/
theorem Buffered.stages_eq (h : state.Buffered inType outType) (input : Int → Nat)
    {count offset : Int} (hoffset : 0 ≤ offset) (hcount : 0 ≤ count) :
    state.stages input count offset =
      .ok ((intRange 0 count).map fun i => state.target (offset + i) (input i)) := by
  unfold stages
  by_cases hsame : state.fromStage = state.toStage
  · have hrange : state.range = [] := by
      rw [range, Program.range, hsame, List.drop_eq_nil_iff, List.length_take]
      exact min_le_left _ _
    rw [if_pos hsame]
    simp only [target, hrange]
    rfl
  · rw [if_neg hsame, h.pieces_eq input hoffset (le_refl 0) (by omega)]

end WalkState

end SymReloc
