import SymReloc.Wire.DecodeLayout

/-!
# Reading typed plans

The sections a v1 plan adds: logical descriptors, value stages with their
parameters, and typed fills.  The reader keeps the offset of every stage and fill
for the messages of the checks that follow; the bytes do not depend on it.
-/

namespace SymReloc

open Reader ByteReader

/-! ### Stage types and parameters -/

/-- `parseStageType`. -/
def parseStageType : Read StageType := do
  let type ← parseElementType
  let signedness ← readEnum Signedness.bytes "invalid stage type signedness"
  pure { type, signedness }

def writeStageType (stage : StageType) : List UInt8 :=
  writeElementType stage.type ++ writeU8 (Signedness.bytes.toByte stage.signedness)

theorem codes_parseStageType :
    Codes parseStageType (fun stage => stage.type.Valid) writeStageType where
  sound size := by
    refine (codes_parseElementType.sound size).bind fun _ type _ ⟨hb, htype⟩ =>
      ((codes_readEnum Signedness.bytes _).sound size).bind_pure ?_
    rintro _ signedness ⟨rfl, -⟩
    subst hb
    exact ⟨rfl, htype⟩
  complete stage hstage := by
    refine (codes_parseElementType.complete stage.type hstage).bind ?_
    rintro _ rfl
    refine ((codes_readEnum Signedness.bytes _).complete stage.signedness trivial).bind_pure ?_
    rintro _ rfl
    rfl

/-- A byte that is 0 or 1 and gives the rank of a parameter. -/
def readRank : Read Nat := do
  let rankAt ← offset
  let rank ← readU8
  if 1 < rank.toNat then failAt rankAt "parameter rank must be 0 or 1" else pure rank.toNat

/-- The values of an inline parameter, eight bytes each. -/
def parseInlineBits (rank : Nat) : Read (List Nat) := do
  let countAt ← offset
  let count ← readCount "inline parameter count"
  if count = 0 then failAt countAt "inline parameter must hold a value"
  else if rank = 0 ∧ count ≠ 1 then
    failAt countAt "rank-0 inline parameter must hold exactly one value"
  else do
    let left ← remaining
    if left / 8 < count then failAt countAt "count exceeds remaining bytes: inline parameter"
    else readElements readU64 count

/-- `parseParam`. -/
def parseParam (symbolCount : Nat) : Read StageParam := do
  let position ← offset
  let kind ← readU8
  match kind with
  | 0 => pure .none
  | 1 => do
      let rank ← readRank
      let elementType ← parseElementType
      let inlineBits ← parseInlineBits rank
      pure (.inline rank elementType inlineBits)
  | 2 => do
      let nameAt ← offset
      let bindingName ← readString
      if bindingName = [] then failAt nameAt "binding name must not be empty"
      else do
        let rank ← readRank
        let bindingExtents ← repeatRead (parseExpr (.plan symbolCount)) rank
        let elementType ← parseElementType
        pure (.binding bindingName bindingExtents elementType)
  | _ => failAt position "invalid parameter kind"

def writeRank (rank : Nat) : List UInt8 := writeU8 (UInt8.ofNat rank)

def writeParam : StageParam → List UInt8
  | .none => writeU8 0
  | .inline rank elementType inlineBits =>
      writeU8 1 ++ writeRank rank ++ writeElementType elementType ++ writeVector writeU64 inlineBits
  | .binding bindingName bindingExtents elementType =>
      writeU8 2 ++ writeString bindingName ++ writeRank bindingExtents.length ++
        bindingExtents.flatMap writeStream ++ writeElementType elementType

/-- A parameter with as many values or extents as its rank asks for. -/
def StageParam.WellFormed (symbolCount : Nat) : StageParam → Prop
  | .none => True
  | .inline rank elementType inlineBits =>
      rank ≤ 1 ∧ elementType.Valid ∧ inlineBits ≠ [] ∧ (rank = 0 → inlineBits.length = 1) ∧
        inlineBits.length < 2 ^ 32 ∧ ∀ bits ∈ inlineBits, bits < 2 ^ 64
  | .binding bindingName bindingExtents elementType =>
      bindingName ≠ [] ∧ bindingName.length < 2 ^ 32 ∧ bindingExtents.length ≤ 1 ∧
        (∀ extent ∈ bindingExtents, extent.WellFormed (.plan symbolCount)) ∧ elementType.Valid

theorem codes_readRank : Codes readRank (· ≤ 1) writeRank where
  sound size := by
    refine parses_offset_bind fun _ => (codes_readU8.sound size).bind fun _ rank _ ⟨hb, _⟩ =>
      Parses.guard fun hrank => parses_pure ?_
    subst hb
    exact ⟨by rw [List.append_nil, writeRank, UInt8.ofNat_toNat], Nat.le_of_not_lt hrank⟩
  complete rank hrank := by
    have hback : (UInt8.ofNat rank).toNat = rank := by
      rw [UInt8.toNat_ofNat']
      omega
    rw [← List.append_nil (writeRank rank)]
    refine accepts_offset_bind fun _ => (codes_readU8.complete (UInt8.ofNat rank) trivial).bind ?_
    rintro _ rfl
    rw [hback]
    exact Accepts.guard (Nat.not_lt.mpr hrank) (accepts_pure rfl)

theorem length_writeU64s (values : List Nat) :
    (values.flatMap writeU64).length = 8 * values.length := by
  induction values with
  | nil => rfl
  | cons value values ih =>
      rw [List.flatMap_cons, List.length_append, length_writeU64, ih, List.length_cons]
      omega

theorem codes_parseInlineBits (rank : Nat) :
    Codes (parseInlineBits rank)
      (fun inlineBits => inlineBits ≠ [] ∧ (rank = 0 → inlineBits.length = 1) ∧
        inlineBits.length < 2 ^ 32 ∧ ∀ bits ∈ inlineBits, bits < 2 ^ 64)
      (writeVector writeU64) where
  sound size := by
    refine parses_offset_bind fun _ =>
      (parses_readCount size _).bind fun _ count _ ⟨hb, hlt, hle⟩ =>
      Parses.guard fun hpos => Parses.guard fun hrank => parses_remaining_bind fun _ =>
        Parses.guard fun _ => (parses_readElements codes_readU64.via hle).mono ?_
    rintro _ values _ ⟨rfl, hlength, hall⟩
    rw [List.map_id'] at hlength hall ⊢
    subst hb hlength
    rw [List.length_eq_zero_iff] at hpos
    exact ⟨rfl, hpos, fun hzero => not_not.mp fun hone => hrank ⟨hzero, hone⟩, hlt, hall⟩
  complete values := by
    rintro ⟨hne, hrank, hlt, hall⟩
    have hpos : ¬ values.length = 0 := by rwa [List.length_eq_zero_iff]
    have hlength := length_writeU64s values
    refine accepts_offset_bind fun _ => accepts_readCount_bind hlt (by omega)
      (Accepts.guard hpos (Accepts.guard (fun h => h.2 (hrank h.1))
        (accepts_remaining_bind fun left hleft => Accepts.guard (by omega) ?_)))
    refine (accepts_readElements codes_readU64.via (fun value _ => ?_) hall).mono
      fun _ hresult => ?_
    · rw [length_writeU64]
      omega
    · rwa [List.map_id'] at hresult

theorem codes_parseParam (symbolCount : Nat) :
    Codes (parseParam symbolCount) (StageParam.WellFormed symbolCount) writeParam where
  sound size := by
    refine parses_offset_bind fun _ => (codes_readU8.sound size).bind ?_
    rintro _ kind _ ⟨hb, -⟩
    subst hb
    split
    · exact parses_pure ⟨rfl, trivial⟩
    · refine (codes_readRank.sound size).bind ?_
      rintro _ rank _ ⟨hb, hrank⟩
      refine (codes_parseElementType.sound size).bind ?_
      rintro _ elementType _ ⟨hb', htype⟩
      refine ((codes_parseInlineBits rank).sound size).bind_pure ?_
      rintro _ inlineBits ⟨rfl, hbits⟩
      subst hb hb'
      exact ⟨by simp only [writeParam, List.append_assoc], hrank, htype, hbits⟩
    · refine parses_offset_bind fun _ => (codes_readString.sound size).bind ?_
      rintro _ name _ ⟨hb, hname⟩
      refine Parses.guard fun hne => (codes_readRank.sound size).bind ?_
      rintro _ rank _ ⟨hb', hrank⟩
      refine (((codes_parseExpr _).repeatRead rank).sound size).bind ?_
      rintro _ extents _ ⟨hb'', hextents⟩
      refine (codes_parseElementType.sound size).bind_pure ?_
      rintro _ elementType ⟨rfl, htype⟩
      obtain ⟨rfl, hall⟩ := hextents
      subst hb hb' hb''
      exact ⟨by simp only [writeParam, List.append_assoc], hne, hname, hrank, hall, htype⟩
    · exact parses_fail _
  complete param hparam := by
    refine accepts_offset_bind fun _ => ?_
    cases param with
    | none =>
        rw [← List.append_nil (writeParam _)]
        refine (codes_readU8.complete 0 trivial).bind ?_
        rintro _ rfl
        exact accepts_pure rfl
    | inline rank elementType inlineBits =>
        obtain ⟨hrank, htype, hbits⟩ := hparam
        simp only [writeParam, List.append_assoc]
        refine (codes_readU8.complete 1 trivial).bind ?_
        rintro _ rfl
        refine (codes_readRank.complete rank hrank).bind ?_
        rintro _ rfl
        refine (codes_parseElementType.complete elementType htype).bind ?_
        rintro _ rfl
        refine ((codes_parseInlineBits _).complete inlineBits hbits).bind_pure ?_
        rintro _ rfl
        rfl
    | binding name extents elementType =>
        obtain ⟨hne, hname, hrank, hall, htype⟩ := hparam
        simp only [writeParam, List.append_assoc]
        refine (codes_readU8.complete 2 trivial).bind ?_
        rintro _ rfl
        refine accepts_offset_bind fun _ => (codes_readString.complete name hname).bind ?_
        rintro _ rfl
        refine Accepts.guard hne ((codes_readRank.complete extents.length hrank).bind ?_)
        rintro _ rfl
        refine (((codes_parseExpr _).repeatRead extents.length).complete extents
          ⟨rfl, hall⟩).bind ?_
        rintro _ rfl
        refine (codes_parseElementType.complete elementType htype).bind_pure ?_
        rintro _ rfl
        rfl

/-! ### Stages -/

/-- The channel map of a stage, over the coordinates of the result. -/
def parseChannel (symbolCount resultRank : Nat) : Read (Option ExprStream) := do
  let hasChannel ← readEnum .flag "has_channel flag must be 0 or 1"
  if hasChannel = false then pure none
  else do
    let dimsAt ← offset
    let numDims ← readU32
    if numDims ≠ resultRank then failAt dimsAt "channel map num_dims must equal the result rank"
    else do
      let channel ← parseExpr ⟨.channel, symbolCount, numDims⟩
      pure (some channel)

/-- `parseStage`. -/
def parseStage (symbolCount resultRank : Nat) : Read ValueStage := do
  let transform ← readEnum ValueTransformKind.bytes "unknown stage transform"
  let policy ← readEnum NumericPolicyKind.bytes "unknown numerical policy"
  let input ← parseStageType
  let output ← parseStageType
  let shape ← readVectorIf "stage shape rank" (1 ≤ ·) "stage shape must have rank >= 1"
    (parseExpr (.plan symbolCount))
  let scale ← parseParam symbolCount
  let zeroPoint ← parseParam symbolCount
  let axis ← readI64
  let channel ← parseChannel symbolCount resultRank
  pure { transform, policy, input, output, shape, scale, zeroPoint, axis, channel }

def writeChannel (resultRank : Nat) : Option ExprStream → List UInt8
  | none => writeFlag false
  | some channel => writeFlag true ++ writeU32 resultRank ++ writeStream channel

def writeStage (resultRank : Nat) (stage : ValueStage) : List UInt8 :=
  writeU8 (ValueTransformKind.bytes.toByte stage.transform) ++
    writeU8 (NumericPolicyKind.bytes.toByte stage.policy) ++
    writeStageType stage.input ++ writeStageType stage.output ++
    writeVector writeStream stage.shape ++ writeParam stage.scale ++ writeParam stage.zeroPoint ++
    writeI64 stage.axis ++ writeChannel resultRank stage.channel

/-- What the reader guarantees of a stage. -/
structure ValueStage.WellFormed (symbolCount resultRank : Nat) (stage : ValueStage) : Prop where
  input : stage.input.type.Valid
  output : stage.output.type.Valid
  shape_pos : 1 ≤ stage.shape.length
  shape : StreamsWellFormed (.plan symbolCount) stage.shape
  scale : stage.scale.WellFormed symbolCount
  zeroPoint : stage.zeroPoint.WellFormed symbolCount
  axis : FitsI64 stage.axis
  channel : ∀ stream, stage.channel = some stream →
    stream.WellFormed ⟨.channel, symbolCount, resultRank⟩

theorem codes_parseChannel {symbolCount resultRank : Nat} (hrank : resultRank < 2 ^ 32) :
    Codes (parseChannel symbolCount resultRank)
      (fun channel => ∀ stream, channel = some stream →
        stream.WellFormed ⟨.channel, symbolCount, resultRank⟩)
      (writeChannel resultRank) where
  sound size := by
    refine ((codes_readFlag _).sound size).bind fun _ flag _ ⟨hb, _⟩ =>
      parses_ite (fun hflag => ?_) fun hflag => ?_
    · subst hb hflag
      exact parses_pure ⟨rfl, by simp⟩
    · rw [Bool.not_eq_false] at hflag
      refine parses_offset_bind fun _ => (codes_readU32.sound size).bind fun _ dims _ ⟨hb', _⟩ =>
        Parses.guard fun hdims => ((codes_parseExpr _).sound size).bind_pure ?_
      rintro _ channel ⟨rfl, hchannel⟩
      rw [not_not] at hdims
      subst hb hflag hb' hdims
      refine ⟨by simp only [writeChannel, List.append_assoc], ?_⟩
      rintro _ ⟨rfl⟩
      exact hchannel
  complete channel hchannel := by
    cases channel with
    | none =>
        rw [writeChannel, ← List.append_nil (writeFlag _)]
        refine ((codes_readFlag _).complete false trivial).bind ?_
        rintro _ rfl
        exact accepts_pure rfl
    | some stream =>
        simp only [writeChannel, List.append_assoc]
        refine ((codes_readFlag _).complete true trivial).bind ?_
        rintro _ rfl
        refine Accepts.guard (by decide) (accepts_offset_bind fun _ =>
          (codes_readU32.complete resultRank hrank).bind ?_)
        rintro _ rfl
        refine Accepts.guard (not_not.mpr rfl)
          (((codes_parseExpr _).complete stream (hchannel stream rfl)).bind_pure ?_)
        rintro _ rfl
        rfl

theorem codes_readShape (symbolCount : Nat) :
    Codes (readVectorIf "stage shape rank" (1 ≤ ·) "stage shape must have rank >= 1"
        (parseExpr (.plan symbolCount)))
      (fun shape => shape.length < 2 ^ 32 ∧ 1 ≤ shape.length ∧
        ∀ stream ∈ shape, stream.WellFormed (.plan symbolCount))
      (writeVector writeStream) :=
  codes_readVectorIf (codes_parseExpr _) length_writeStream_pos

theorem codes_parseStage {symbolCount resultRank : Nat} (hrank : resultRank < 2 ^ 32) :
    Codes (parseStage symbolCount resultRank) (ValueStage.WellFormed symbolCount resultRank)
      (writeStage resultRank) where
  sound size := by
    have hparam := (codes_parseParam symbolCount).sound size
    refine ((codes_readEnum ValueTransformKind.bytes _).sound size).bind
      fun _ transform _ ⟨hb, _⟩ =>
      ((codes_readEnum NumericPolicyKind.bytes _).sound size).bind fun _ policy _ ⟨hb₁, _⟩ =>
        (codes_parseStageType.sound size).bind fun _ input _ ⟨hb₂, hinput⟩ =>
          (codes_parseStageType.sound size).bind fun _ output _ ⟨hb₃, houtput⟩ =>
            ((codes_readShape symbolCount).sound size).bind fun _ shape _ ⟨hb₄, hshape⟩ =>
              hparam.bind fun _ scale _ ⟨hb₅, hscale⟩ =>
                hparam.bind fun _ zeroPoint _ ⟨hb₆, hzero⟩ =>
                (codes_readI64.sound size).bind fun _ axis _ ⟨hb₇, haxis⟩ =>
                  ((codes_parseChannel hrank).sound size).bind_pure ?_
    rintro _ channel ⟨rfl, hchannel⟩
    subst hb hb₁ hb₂ hb₃ hb₄ hb₅ hb₆ hb₇
    exact ⟨by simp only [writeStage, List.append_assoc],
      { input := hinput, output := houtput, shape_pos := hshape.2.1,
        shape := ⟨hshape.1, hshape.2.2⟩, scale := hscale, zeroPoint := hzero, axis := haxis,
        channel := hchannel }⟩
  complete stage hstage := by
    simp only [writeStage, List.append_assoc]
    refine ((codes_readEnum ValueTransformKind.bytes _).complete stage.transform trivial).bind ?_
    rintro _ rfl
    refine ((codes_readEnum NumericPolicyKind.bytes _).complete stage.policy trivial).bind ?_
    rintro _ rfl
    refine (codes_parseStageType.complete stage.input hstage.input).bind ?_
    rintro _ rfl
    refine (codes_parseStageType.complete stage.output hstage.output).bind ?_
    rintro _ rfl
    refine ((codes_readShape symbolCount).complete stage.shape
      ⟨hstage.shape.count_lt, hstage.shape_pos, hstage.shape.each⟩).bind ?_
    rintro _ rfl
    refine ((codes_parseParam symbolCount).complete stage.scale hstage.scale).bind ?_
    rintro _ rfl
    refine ((codes_parseParam symbolCount).complete stage.zeroPoint hstage.zeroPoint).bind ?_
    rintro _ rfl
    refine (codes_readI64.complete stage.axis hstage.axis).bind ?_
    rintro _ rfl
    refine ((codes_parseChannel hrank).complete stage.channel hstage.channel).bind_pure ?_
    rintro _ rfl
    rfl

/-! ### Fills -/

/-- One entry of the fills section. -/
def parseFill : Read TypedFill := do
  let dstAxis ← readU32
  let stage ← readU32
  let type ← parseElementType
  let bits ← readU64
  pure { dstAxis, stage, type, bits }

def writeFill (fill : TypedFill) : List UInt8 :=
  writeU32 fill.dstAxis ++ writeU32 fill.stage ++ writeElementType fill.type ++ writeU64 fill.bits

structure TypedFill.WellFormed (fill : TypedFill) : Prop where
  dstAxis : fill.dstAxis < 2 ^ 32
  stage : fill.stage < 2 ^ 32
  type : fill.type.Valid
  bits : fill.bits < 2 ^ 64

theorem codes_parseFill : Codes parseFill TypedFill.WellFormed writeFill where
  sound size := by
    refine (codes_readU32.sound size).bind fun _ dstAxis _ ⟨hb, haxis⟩ =>
      (codes_readU32.sound size).bind fun _ stage _ ⟨hb₁, hstage⟩ =>
        (codes_parseElementType.sound size).bind fun _ type _ ⟨hb₂, htype⟩ =>
          (codes_readU64.sound size).bind_pure ?_
    rintro _ bits ⟨rfl, hbits⟩
    subst hb hb₁ hb₂
    exact ⟨by simp only [writeFill, List.append_assoc], haxis, hstage, htype, hbits⟩
  complete fill hfill := by
    simp only [writeFill, List.append_assoc]
    refine (codes_readU32.complete fill.dstAxis hfill.dstAxis).bind ?_
    rintro _ rfl
    refine (codes_readU32.complete fill.stage hfill.stage).bind ?_
    rintro _ rfl
    refine (codes_parseElementType.complete fill.type hfill.type).bind ?_
    rintro _ rfl
    refine (codes_readU64.complete fill.bits hfill.bits).bind_pure ?_
    rintro _ rfl
    rfl

/-! ### The sections together -/

/-- A typed plan with the offsets the checks report. -/
structure LocatedTypedPlan where
  symbols : List Name
  source : TensorDesc
  result : TensorDesc
  layoutAt : Nat
  layout : RelocationPlan
  stagesAt : Nat
  stages : List (Nat × ValueStage)
  fillsAt : Nat
  fills : List (Nat × TypedFill)

def LocatedTypedPlan.plan (located : LocatedTypedPlan) : TypedRelocationPlan where
  symbols := located.symbols
  source := located.source
  result := located.result
  layout := located.layout
  stages := located.stages.map Prod.snd
  fills := located.fills.map Prod.snd

/-- The reads of `decodeTypedPlan`, up to the end of the fills. -/
def typedPlanReader : Read LocatedTypedPlan := do
  let symbols ← parseHeader kTypedWireFormatVersion
  let source ← parseTensorDesc symbols.length
  let result ← parseTensorDesc symbols.length
  let layoutAt ← offset
  let layout ← parseLayoutBody symbols
  let stagesAt ← offset
  let stages ← readVector "stage count"
    (located (parseStage symbols.length result.extents.length))
  let fillsAt ← offset
  let fills ← readVector "fill count" (located parseFill)
  pure { symbols, source, result, layoutAt, layout, stagesAt, stages, fillsAt, fills }

def writeTypedPlan (plan : TypedRelocationPlan) : List UInt8 :=
  writeHeader kTypedWireFormatVersion plan.symbols ++ writeTensorDesc plan.source ++
    writeTensorDesc plan.result ++ writeLayoutBody plan.layout ++
    writeVector (writeStage plan.result.extents.length) plan.stages ++
    writeVector writeFill plan.fills

/-- What the reader guarantees of a typed plan before the cross-checks. -/
structure TypedRelocationPlan.SectionsWellFormed (plan : TypedRelocationPlan) : Prop where
  symbols : SymbolsWellFormed plan.symbols
  source : plan.source.WellFormed plan.symbols.length
  result : plan.result.WellFormed plan.symbols.length
  layout_symbols : plan.layout.symbols = plan.symbols
  layout : plan.layout.LayoutWellFormed
  stages_lt : plan.stages.length < 2 ^ 32
  stages : ∀ stage ∈ plan.stages,
    stage.WellFormed plan.symbols.length plan.result.extents.length
  fills_lt : plan.fills.length < 2 ^ 32
  fills : ∀ fill ∈ plan.fills, fill.WellFormed

theorem codes_readStages {symbolCount resultRank : Nat} (hrank : resultRank < 2 ^ 32) :
    CodesVia (List.map Prod.snd)
      (readVector "stage count" (located (parseStage symbolCount resultRank)))
      (fun stages => stages.length < 2 ^ 32 ∧
        ∀ stage ∈ stages, stage.WellFormed symbolCount resultRank)
      (writeVector (writeStage resultRank)) :=
  codesVia_readVector (codes_parseStage hrank).located fun stage _ => by
    simp only [writeStage, List.length_append, length_writeU8]
    omega

theorem codes_readFills :
    CodesVia (List.map Prod.snd) (readVector "fill count" (located parseFill))
      (fun fills => fills.length < 2 ^ 32 ∧ ∀ fill ∈ fills, fill.WellFormed)
      (writeVector writeFill) :=
  codesVia_readVector codes_parseFill.located fun fill _ => by
    simp only [writeFill, List.length_append, length_writeU32]
    omega

theorem codes_typedPlanReader :
    CodesVia LocatedTypedPlan.plan typedPlanReader TypedRelocationPlan.SectionsWellFormed
      writeTypedPlan where
  sound size := by
    refine ((codes_parseHeader (by decide)).sound size).bind fun _ symbols _ ⟨hb, hsymbols⟩ =>
      ((codes_parseTensorDesc _).sound size).bind fun _ source _ ⟨hb₁, hsource⟩ =>
        ((codes_parseTensorDesc _).sound size).bind fun _ result _ ⟨hb₂, hresult⟩ =>
          parses_offset_bind fun layoutAt =>
            ((codes_parseLayoutBody symbols).sound size).bind fun _ layout _ ⟨hb₃, hlayout⟩ =>
              parses_offset_bind fun stagesAt =>
                ((codes_readStages hresult.extents.count_lt).sound size).bind
                  fun _ stages _ ⟨hb₄, hstages⟩ => parses_offset_bind fun fillsAt =>
                    (codes_readFills.sound size).bind_pure ?_
    rintro _ fills ⟨rfl, hfills⟩
    subst hb hb₁ hb₂ hb₃ hb₄
    exact ⟨by simp only [writeTypedPlan, LocatedTypedPlan.plan, List.append_assoc],
      { symbols := hsymbols, source := hsource, result := hresult, layout_symbols := hlayout.1,
        layout := hlayout.2, stages_lt := hstages.1, stages := hstages.2, fills_lt := hfills.1,
        fills := hfills.2 }⟩
  complete plan hplan := by
    simp only [writeTypedPlan, List.append_assoc]
    refine ((codes_parseHeader (by decide)).complete plan.symbols hplan.symbols).bind ?_
    rintro _ rfl
    refine ((codes_parseTensorDesc _).complete plan.source hplan.source).bind ?_
    rintro _ rfl
    refine ((codes_parseTensorDesc _).complete plan.result hplan.result).bind ?_
    rintro _ rfl
    refine accepts_offset_bind fun _ => ((codes_parseLayoutBody plan.symbols).complete plan.layout
      ⟨hplan.layout_symbols, hplan.layout⟩).bind ?_
    rintro _ rfl
    refine accepts_offset_bind fun _ => ((codes_readStages hplan.result.extents.count_lt).complete
      plan.stages ⟨hplan.stages_lt, hplan.stages⟩).bind fun stages hstages =>
        accepts_offset_bind fun _ => (codes_readFills.complete plan.fills
          ⟨hplan.fills_lt, hplan.fills⟩).bind_pure fun fills hfills => ?_
    simp only [LocatedTypedPlan.plan, hstages, hfills]

end SymReloc
