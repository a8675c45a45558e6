import SymReloc.Wire.ByteReader
import Mathlib.Data.List.Nodup

/-!
# Decoding expressions and descriptors

The parts every wire version shares: expression streams, element types and
tensor descriptors.  Beside each reader stands the condition its results satisfy
and the writer it inverts; `codes_…` states both directions at once.
-/

namespace SymReloc

open Reader ByteReader

/-! ### Expressions -/

/-- One operation, with the depth it leaves. -/
def parseToken (scope : ExprScope) (depth : Nat) : Read (ExprToken × Nat) := do
  let opAt ← offset
  let opcode ← readU8
  match opcode with
  | 0 =>
      if scope.context = .inverse then
        failAt opAt "PUSH_SYM is not allowed in inverse expressions"
      else do
        let index ← readU32
        if index ≥ scope.symbolCount then failAt opAt "PUSH_SYM symbol index out of range"
        else pure (.pushSym index, depth + 1)
  | 1 => do
      let value ← readI64
      pure (.pushConst value, depth + 1)
  | 7 =>
      if scope.context = .plan then
        failAt opAt "PUSH_DIM is only allowed in inverse and channel expressions"
      else do
        let index ← readU32
        if index ≥ scope.dimCount then failAt opAt "PUSH_DIM dim index out of range"
        else pure (.pushDim index, depth + 1)
  | byte =>
      match StackOp.bytes.ofByte? byte with
      | some op =>
          if depth < 2 then failAt opAt "expression stack underflow"
          else pure (.apply op, depth - 1)
      | none => failAt opAt "unknown expression opcode"

/-- The loop over the operations of a stream. -/
def parseTokens (scope : ExprScope) : Nat → Nat → Read (ExprStream × Nat)
  | 0, depth => pure ([], depth)
  | count + 1, depth => do
      let (token, depth) ← parseToken scope depth
      let (rest, depth) ← parseTokens scope count depth
      pure (token :: rest, depth)

/-- `parseExpr`: a stream with full static validation. -/
def parseExpr (scope : ExprScope) : Read ExprStream := do
  let start ← offset
  let opCount ← readCount "expression op_count"
  if opCount = 0 then failAt start "empty expression stream"
  else do
    reserve opCount
    let (stream, depth) ← parseTokens scope opCount 0
    if depth ≠ 1 then failAt start "expression stream must leave exactly one value"
    else pure stream

def writeToken : ExprToken → List UInt8
  | .pushSym index => writeU8 0 ++ writeU32 index
  | .pushConst value => writeU8 1 ++ writeI64 value
  | .pushDim index => writeU8 7 ++ writeU32 index
  | .apply op => writeU8 (StackOp.bytes.toByte op)

abbrev writeStream : ExprStream → List UInt8 := writeVector writeToken

theorem length_writeToken_pos (token : ExprToken) : 1 ≤ (writeToken token).length := by
  cases token <;> simp [writeToken]

theorem parses_parseToken (size : Nat) (scope : ExprScope) (depth : Nat) :
    Parses size (parseToken scope depth) fun bytes result =>
      bytes = writeToken result.1 ∧ result.1.WellFormed scope ∧
        result.1.depthAfter depth = some result.2 := by
  refine parses_offset_bind fun opAt =>
    (codes_readU8.sound size).bind fun bytes opcode _ hopcode => ?_
  obtain ⟨rfl, -⟩ := hopcode
  split
  · refine Parses.guard fun hcontext => (codes_readU32.sound size).bind fun bytes index _ hindex =>
      Parses.guard fun hrange => parses_pure ?_
    obtain ⟨rfl, hlt⟩ := hindex
    exact ⟨by simp [writeToken], ⟨hcontext, by omega, hlt⟩, rfl⟩
  · refine (codes_readI64.sound size).bind_pure ?_
    rintro _ value ⟨rfl, hfits⟩
    exact ⟨rfl, hfits, rfl⟩
  · refine Parses.guard fun hcontext => (codes_readU32.sound size).bind fun bytes index _ hindex =>
      Parses.guard fun hrange => parses_pure ?_
    obtain ⟨rfl, hlt⟩ := hindex
    exact ⟨by simp [writeToken], ⟨hcontext, by omega, hlt⟩, rfl⟩
  · split
    · rename_i op hop
      refine Parses.guard fun hdepth => parses_pure ⟨?_, trivial, ?_⟩
      · rw [List.append_nil, writeToken, StackOp.bytes.toByte_of_ofByte? opcode op hop]
      · simp only [ExprToken.depthAfter, if_neg hdepth]
    · exact parses_fail _

theorem accepts_parseToken {scope : ExprScope} {depth depth' : Nat} {token : ExprToken}
    (hwf : token.WellFormed scope) (hdepth : token.depthAfter depth = some depth') :
    Accepts (parseToken scope depth) (writeToken token) (· = (token, depth')) := by
  refine accepts_offset_bind fun opAt => ?_
  cases token with
  | pushSym index =>
      obtain ⟨hcontext, hrange, hlt⟩ := hwf
      cases hdepth
      refine (codes_readU8.complete 0 trivial).bind ?_
      rintro _ rfl
      rw [← List.append_nil (writeU32 index)]
      refine Accepts.guard hcontext ((codes_readU32.complete index hlt).bind ?_)
      rintro _ rfl
      exact Accepts.guard (by omega) (accepts_pure rfl)
  | pushConst value =>
      cases hdepth
      refine (codes_readU8.complete 1 trivial).bind ?_
      rintro _ rfl
      refine (codes_readI64.complete value hwf).bind_pure ?_
      rintro _ rfl
      rfl
  | pushDim index =>
      obtain ⟨hcontext, hrange, hlt⟩ := hwf
      cases hdepth
      refine (codes_readU8.complete 7 trivial).bind ?_
      rintro _ rfl
      rw [← List.append_nil (writeU32 index)]
      refine Accepts.guard hcontext ((codes_readU32.complete index hlt).bind ?_)
      rintro _ rfl
      exact Accepts.guard (by omega) (accepts_pure rfl)
  | apply op =>
      simp only [ExprToken.depthAfter] at hdepth
      split at hdepth
      · cases hdepth
      · rename_i hdepth'
        cases hdepth
        rw [writeToken, ← List.append_nil (writeU8 _)]
        refine (codes_readU8.complete _ trivial).bind ?_
        rintro _ rfl
        cases op <;> exact Accepts.guard hdepth' (accepts_pure rfl)

theorem parses_parseTokens (size : Nat) (scope : ExprScope) (count depth : Nat) :
    Parses size (parseTokens scope count depth) fun bytes result =>
      bytes = result.1.flatMap writeToken ∧ result.1.length = count ∧
        (∀ token ∈ result.1, token.WellFormed scope) ∧
        ExprStream.depthFrom result.1 depth = some result.2 := by
  induction count generalizing depth with
  | zero => exact parses_pure ⟨rfl, rfl, by simp, rfl⟩
  | succ count ih =>
      refine (parses_parseToken size scope depth).bind fun bytes result _ htoken =>
        (ih result.2).bind_pure ?_
      rintro bytes' rest ⟨rfl, hlength, hall, hrest⟩
      obtain ⟨rfl, hwf, hdepth⟩ := htoken
      refine ⟨rfl, congrArg (· + 1) hlength, ?_, ?_⟩
      · rintro token (_ | ⟨_, htoken⟩)
        · exact hwf
        · exact hall token htoken
      · rw [ExprStream.depthFrom_cons, hdepth]
        exact hrest

theorem accepts_parseTokens {scope : ExprScope} {stream : ExprStream} {depth depth' : Nat}
    (hwf : ∀ token ∈ stream, token.WellFormed scope)
    (hdepth : ExprStream.depthFrom stream depth = some depth') :
    Accepts (parseTokens scope stream.length depth) (stream.flatMap writeToken)
      (· = (stream, depth')) := by
  induction stream generalizing depth with
  | nil =>
      cases hdepth
      exact accepts_pure rfl
  | cons token rest ih =>
      rw [ExprStream.depthFrom_cons] at hdepth
      obtain ⟨middle, hmiddle, hrest⟩ := Option.bind_eq_some_iff.mp hdepth
      refine (accepts_parseToken (hwf token (by simp)) hmiddle).bind ?_
      rintro _ rfl
      refine (ih (fun t ht => hwf t (by simp [ht])) hrest).bind_pure ?_
      rintro _ rfl
      rfl

theorem codes_parseExpr (scope : ExprScope) :
    Codes (parseExpr scope) (ExprStream.WellFormed scope) writeStream where
  sound size := by
    refine parses_offset_bind fun start =>
      (parses_readCount size _).bind fun bytes count _ hcount =>
      Parses.guard fun _ => (parses_reserve hcount.2.2).bind fun bytes' _ _ hnil =>
        (parses_parseTokens size scope count 0).bind fun bytes'' result _ hresult =>
          Parses.guard fun hdepth => parses_pure ?_
    obtain ⟨rfl, hlt, -⟩ := hcount
    obtain ⟨rfl, hlength, hall, hend⟩ := hresult
    subst hnil hlength
    rw [not_not] at hdepth
    rw [hdepth] at hend
    exact ⟨by simp [writeVector], hlt, hall, hend⟩
  complete stream hstream := by
    have hle : stream.length ≤ (stream.flatMap writeToken).length :=
      length_le_length_flatMap fun token _ => length_writeToken_pos token
    have hne : ¬ stream.length = 0 := by
      intro hnil
      rw [List.length_eq_zero_iff] at hnil
      have hdepth := hstream.depth
      rw [hnil] at hdepth
      cases hdepth
    refine accepts_offset_bind fun start => accepts_readCount_bind hstream.count_lt hle
      (Accepts.guard hne (accepts_reserve_bind hle ?_))
    rw [← List.append_nil (stream.flatMap writeToken)]
    refine (accepts_parseTokens hstream.tokens hstream.depth).bind ?_
    rintro _ rfl
    exact Accepts.guard (not_not.mpr rfl) (accepts_pure rfl)

theorem length_writeStream_pos {scope : ExprScope} (stream : ExprStream)
    (_ : stream.WellFormed scope) : 1 ≤ (writeStream stream).length :=
  length_writeVector_pos writeToken stream

/-! ### Element types and descriptors -/

/-- `parseElementType`. -/
def parseElementType : Read ElementType := do
  let position ← offset
  let kind ← readU8
  let bitwidth ← readU32
  match ElementTypeKind.bytes.ofByte? kind with
  | some kind =>
      if ¬ ElementType.Valid ⟨kind, bitwidth⟩ then
        failAt position "invalid element type kind/bitwidth"
      else pure ⟨kind, bitwidth⟩
  | none => failAt position "invalid element type kind/bitwidth"

def writeElementType (type : ElementType) : List UInt8 :=
  writeU8 (ElementTypeKind.bytes.toByte type.kind) ++ writeU32 type.bitwidth

theorem ElementType.Valid.bitwidth_lt {type : ElementType} (h : type.Valid) :
    type.bitwidth < 2 ^ 32 := by
  obtain ⟨kind, width⟩ := type
  cases kind <;> simp only [ElementType.Valid] at h ⊢ <;> omega

theorem codes_parseElementType : Codes parseElementType ElementType.Valid writeElementType where
  sound size := by
    refine parses_offset_bind fun position =>
      (codes_readU8.sound size).bind fun bytes kind _ hkind =>
      (codes_readU32.sound size).bind fun bytes' bitwidth _ hwidth => ?_
    obtain ⟨rfl, -⟩ := hkind
    obtain ⟨rfl, -⟩ := hwidth
    split
    · rename_i kind' hkind'
      refine Parses.guard fun hvalid => parses_pure ⟨?_, not_not.mp hvalid⟩
      rw [writeElementType, ElementTypeKind.bytes.toByte_of_ofByte? kind kind' hkind',
        List.append_nil]
    · exact parses_fail _
  complete type htype := by
    refine accepts_offset_bind fun position => (codes_readU8.complete _ trivial).bind ?_
    rintro _ rfl
    rw [← List.append_nil (writeU32 _)]
    refine (codes_readU32.complete type.bitwidth htype.bitwidth_lt).bind ?_
    rintro _ rfl
    rw [ElementTypeKind.bytes.ofByte?_toByte]
    exact Accepts.guard (not_not.mpr htype) (accepts_pure rfl)

/-- A list of streams of one scope, short enough for the wire. -/
structure StreamsWellFormed (scope : ExprScope) (streams : List ExprStream) : Prop where
  count_lt : streams.length < 2 ^ 32
  each : ∀ stream ∈ streams, stream.WellFormed scope

/-- A descriptor with well-formed streams and either no strides or one an extent. -/
structure TensorDesc.WellFormed (symbolCount : Nat) (desc : TensorDesc) : Prop where
  extents : StreamsWellFormed (.plan symbolCount) desc.extents
  strides : StreamsWellFormed (.plan symbolCount) desc.strides
  stride_count : desc.strides.length = 0 ∨ desc.strides.length = desc.extents.length
  offset : desc.offset.WellFormed (.plan symbolCount)
  elementType : desc.elementType.Valid

/-- `parseTensorDesc`. -/
def parseTensorDesc (symbolCount : Nat) : Read TensorDesc := do
  let extents ← readVector "tensor_desc rank" (parseExpr (.plan symbolCount))
  let strides ← readVectorIf "tensor_desc stride_count"
    (fun count => count = 0 ∨ count = extents.length)
    "tensor_desc stride_count must be 0 or the rank" (parseExpr (.plan symbolCount))
  let offset ← parseExpr (.plan symbolCount)
  let elementType ← parseElementType
  pure { extents, strides, offset, elementType }

def writeTensorDesc (desc : TensorDesc) : List UInt8 :=
  writeVector writeStream desc.extents ++ writeVector writeStream desc.strides ++
    writeStream desc.offset ++ writeElementType desc.elementType

theorem codes_parseTensorDesc (symbolCount : Nat) :
    Codes (parseTensorDesc symbolCount) (TensorDesc.WellFormed symbolCount) writeTensorDesc where
  sound size := by
    have hexpr := codes_parseExpr (.plan symbolCount)
    refine ((codes_readVector hexpr length_writeStream_pos).sound size).bind
      fun _ extents _ ⟨hb, hextents⟩ =>
      ((codes_readVectorIf hexpr length_writeStream_pos).sound size).bind
        fun _ strides _ ⟨hb', hstrides⟩ => (hexpr.sound size).bind fun _ offset _ ⟨hb'', hoffset⟩ =>
          (codes_parseElementType.sound size).bind_pure ?_
    rintro _ elementType ⟨rfl, htype⟩
    subst hb hb' hb''
    exact ⟨by simp only [writeTensorDesc, List.append_assoc], ⟨hextents.1, hextents.2⟩,
      ⟨hstrides.1, hstrides.2.2⟩, hstrides.2.1, hoffset, htype⟩
  complete desc hdesc := by
    have hexpr := codes_parseExpr (.plan symbolCount)
    simp only [writeTensorDesc, List.append_assoc]
    refine ((codes_readVector hexpr length_writeStream_pos).complete desc.extents
      ⟨hdesc.extents.count_lt, hdesc.extents.each⟩).bind ?_
    rintro _ rfl
    refine ((codes_readVectorIf hexpr length_writeStream_pos).complete desc.strides
      ⟨hdesc.strides.count_lt, hdesc.stride_count, hdesc.strides.each⟩).bind ?_
    rintro _ rfl
    refine (hexpr.complete desc.offset hdesc.offset).bind ?_
    rintro _ rfl
    refine (codes_parseElementType.complete desc.elementType hdesc.elementType).bind_pure ?_
    rintro _ rfl
    rfl

end SymReloc
