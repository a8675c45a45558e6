import SymReloc.Wire.DecodeExpr

/-!
# Decoding a layout plan

Wire v0: magic, version, symbol table and the layout body, section by section.
`RelocationPlan.WellFormed` collects what the decoder guarantees about a plan,
and `decodePlan_eq_ok` is the sum of the module: a buffer decodes to a plan
exactly when the plan is well formed and the buffer is its documented encoding.
-/

namespace SymReloc

open Reader ByteReader

/-! ### Permutations -/

/-- The loop over `seen`: the first entry that is out of range or repeated. -/
def firstBadEntry (bound : Nat) : List Int → List Int → Option Int
  | _, [] => none
  | seen, value :: rest =>
      if value < 0 ∨ (bound : Int) ≤ value ∨ value ∈ seen then some value
      else firstBadEntry bound (value :: seen) rest

theorem firstBadEntry_eq_none {bound : Nat} {seen values : List Int} :
    firstBadEntry bound seen values = none ↔
      values.Nodup ∧ (∀ value ∈ values, 0 ≤ value ∧ value < bound) ∧
        ∀ value ∈ values, value ∉ seen := by
  induction values generalizing seen with
  | nil => simp [firstBadEntry]
  | cons value rest ih =>
      rw [firstBadEntry]
      split
      · rename_i hbad
        refine iff_of_false (by simp) ?_
        rintro ⟨_, hrange, hseen⟩
        have hvalue := hrange value (by simp)
        have hnot := hseen value (by simp)
        rcases hbad with h | h | h
        · omega
        · omega
        · exact hnot h
      · rename_i hgood
        simp only [not_or, not_lt, not_le] at hgood
        simp only [ih, List.nodup_cons, List.forall_mem_cons]
        constructor
        · rintro ⟨hnodup, hrange, hseen⟩
          exact ⟨⟨fun hmem => hseen value hmem List.mem_cons_self, hnodup⟩,
            ⟨⟨hgood.1, hgood.2.1⟩, hrange⟩, hgood.2.2,
            fun v hv hmem => hseen v hv (List.mem_cons_of_mem value hmem)⟩
        · rintro ⟨⟨hnot, hnodup⟩, ⟨_, hrange⟩, _, hseen⟩
          refine ⟨hnodup, hrange, fun v hv hmem => ?_⟩
          rcases List.mem_cons.mp hmem with rfl | hmem
          · exact hnot hv
          · exact hseen v hv hmem

/-- The entries are distinct and below the number of axes, which is their number. -/
structure IsPermutation (bound : Nat) (perm : List Nat) : Prop where
  length_eq : perm.length = bound
  nodup : perm.Nodup
  lt : ∀ value ∈ perm, value < bound

theorem firstBadEntry_perm {bound : Nat} {perm : List Nat} :
    firstBadEntry bound [] (perm.map Int.ofNat) = none ↔
      perm.Nodup ∧ ∀ value ∈ perm, value < bound := by
  have hinj : Function.Injective Int.ofNat := fun a b h => Int.ofNat.inj h
  rw [firstBadEntry_eq_none, List.nodup_map_iff hinj]
  refine and_congr_right fun _ => ?_
  simp only [List.forall_mem_map, Int.ofNat_eq_natCast, Nat.cast_lt]
  exact ⟨fun h value hvalue => (h.1 value hvalue).2,
    fun h => ⟨fun value hvalue => ⟨Int.natCast_nonneg value, h value hvalue⟩, by simp⟩⟩

/-! ### Records of the layout body -/

structure Axis.WellFormed (symbolCount : Nat) (axis : Axis) : Prop where
  name_lt : axis.name.length < 2 ^ 32
  extent : axis.extent.WellFormed (.plan symbolCount)
  srcStride : axis.srcStride.WellFormed (.plan symbolCount)
  dstStride : axis.dstStride.WellFormed (.plan symbolCount)

def parseAxis (symbolCount : Nat) : Read Axis := do
  let name ← readString
  let extent ← parseExpr (.plan symbolCount)
  let srcStride ← parseExpr (.plan symbolCount)
  let dstStride ← parseExpr (.plan symbolCount)
  pure { name, extent, srcStride, dstStride }

def writeAxis (axis : Axis) : List UInt8 :=
  writeString axis.name ++ writeStream axis.extent ++ writeStream axis.srcStride ++
    writeStream axis.dstStride

theorem codes_parseAxis (symbolCount : Nat) :
    Codes (parseAxis symbolCount) (Axis.WellFormed symbolCount) writeAxis where
  sound size := by
    have hexpr := (codes_parseExpr (.plan symbolCount)).sound size
    refine (codes_readString.sound size).bind fun _ name _ ⟨hb, hname⟩ =>
      hexpr.bind fun _ extent _ ⟨hb', hextent⟩ => hexpr.bind fun _ srcStride _ ⟨hb'', hsrc⟩ =>
        hexpr.bind_pure ?_
    rintro _ dstStride ⟨rfl, hdst⟩
    subst hb hb' hb''
    exact ⟨by simp only [writeAxis, List.append_assoc], hname, hextent, hsrc, hdst⟩
  complete axis haxis := by
    have hexpr := (codes_parseExpr (.plan symbolCount)).complete
    simp only [writeAxis, List.append_assoc]
    refine (codes_readString.complete axis.name haxis.name_lt).bind ?_
    rintro _ rfl
    refine (hexpr axis.extent haxis.extent).bind ?_
    rintro _ rfl
    refine (hexpr axis.srcStride haxis.srcStride).bind ?_
    rintro _ rfl
    refine (hexpr axis.dstStride haxis.dstStride).bind_pure ?_
    rintro _ rfl
    rfl

structure PadFill.WellFormed (symbolCount axisCount : Nat) (pad : PadFill) : Prop where
  dstAxis_lt : pad.dstAxis < axisCount
  dstAxis_fits : pad.dstAxis < 2 ^ 32
  lo : pad.lo.WellFormed (.plan symbolCount)
  hi : pad.hi.WellFormed (.plan symbolCount)
  fillType : pad.fillType.Valid
  fillBits_lt : pad.fillBits < 2 ^ 64

def parsePadFill (symbolCount axisCount : Nat) : Read PadFill := do
  let dstAxisAt ← offset
  let dstAxis ← readU32
  if dstAxis ≥ axisCount then failAt dstAxisAt "pad_fill dst_axis out of range"
  else do
    let lo ← parseExpr (.plan symbolCount)
    let hi ← parseExpr (.plan symbolCount)
    let fillType ← parseElementType
    let fillBits ← readU64
    pure { dstAxis, lo, hi, fillType, fillBits }

def writePadFill (pad : PadFill) : List UInt8 :=
  writeU32 pad.dstAxis ++ writeStream pad.lo ++ writeStream pad.hi ++
    writeElementType pad.fillType ++ writeU64 pad.fillBits

theorem codes_parsePadFill (symbolCount axisCount : Nat) :
    Codes (parsePadFill symbolCount axisCount) (PadFill.WellFormed symbolCount axisCount)
      writePadFill where
  sound size := by
    have hexpr := (codes_parseExpr (.plan symbolCount)).sound size
    refine parses_offset_bind fun _ =>
      (codes_readU32.sound size).bind fun _ dstAxis _ ⟨hb, hfits⟩ =>
      Parses.guard fun hlt => hexpr.bind fun _ lo _ ⟨hb', hlo⟩ =>
        hexpr.bind fun _ hi _ ⟨hb'', hhi⟩ =>
          (codes_parseElementType.sound size).bind fun _ fillType _ ⟨hb₃, htype⟩ =>
            (codes_readU64.sound size).bind_pure ?_
    rintro _ fillBits ⟨rfl, hbits⟩
    subst hb hb' hb'' hb₃
    exact ⟨by simp only [writePadFill, List.append_assoc], Nat.lt_of_not_le hlt, hfits, hlo, hhi,
      htype, hbits⟩
  complete pad hpad := by
    have hexpr := (codes_parseExpr (.plan symbolCount)).complete
    simp only [writePadFill, List.append_assoc]
    refine accepts_offset_bind fun _ =>
      (codes_readU32.complete pad.dstAxis hpad.dstAxis_fits).bind ?_
    rintro _ rfl
    refine Accepts.guard (Nat.not_le.mpr hpad.dstAxis_lt) ((hexpr pad.lo hpad.lo).bind ?_)
    rintro _ rfl
    refine (hexpr pad.hi hpad.hi).bind ?_
    rintro _ rfl
    refine (codes_parseElementType.complete pad.fillType hpad.fillType).bind ?_
    rintro _ rfl
    refine (codes_readU64.complete pad.fillBits hpad.fillBits_lt).bind_pure ?_
    rintro _ rfl
    rfl

structure Divisibility.WellFormed (symbolCount : Nat) (entry : Divisibility) : Prop where
  expr : entry.expr.WellFormed (.plan symbolCount)
  divisor : FitsI64 entry.divisor

def parseDivisibility (symbolCount : Nat) : Read Divisibility := do
  let expr ← parseExpr (.plan symbolCount)
  let divisor ← readI64
  pure { expr, divisor }

def writeDivisibility (entry : Divisibility) : List UInt8 :=
  writeStream entry.expr ++ writeI64 entry.divisor

theorem codes_parseDivisibility (symbolCount : Nat) :
    Codes (parseDivisibility symbolCount) (Divisibility.WellFormed symbolCount)
      writeDivisibility where
  sound size := by
    refine ((codes_parseExpr (.plan symbolCount)).sound size).bind fun _ expr _ ⟨hb, hexpr⟩ =>
      (codes_readI64.sound size).bind_pure ?_
    rintro _ divisor ⟨rfl, hdivisor⟩
    subst hb
    exact ⟨rfl, hexpr, hdivisor⟩
  complete entry hentry := by
    refine ((codes_parseExpr (.plan symbolCount)).complete entry.expr hentry.expr).bind ?_
    rintro _ rfl
    refine (codes_readI64.complete entry.divisor hentry.divisor).bind_pure ?_
    rintro _ rfl
    rfl

structure Alignment.WellFormed (axisCount : Nat) (entry : Alignment) : Prop where
  axis_lt : entry.axis < axisCount
  axis_fits : entry.axis < 2 ^ 32
  bytes : FitsI64 entry.bytes

def parseAlignment (axisCount : Nat) : Read Alignment := do
  let axisAt ← offset
  let axis ← readU32
  if axis ≥ axisCount then failAt axisAt "alignment axis out of range"
  else do
    let bytes ← readI64
    pure { axis, bytes }

def writeAlignment (entry : Alignment) : List UInt8 :=
  writeU32 entry.axis ++ writeI64 entry.bytes

theorem codes_parseAlignment (axisCount : Nat) :
    Codes (parseAlignment axisCount) (Alignment.WellFormed axisCount) writeAlignment where
  sound size := by
    refine parses_offset_bind fun _ => (codes_readU32.sound size).bind fun _ axis _ ⟨hb, hfits⟩ =>
      Parses.guard fun hlt => (codes_readI64.sound size).bind_pure ?_
    rintro _ bytes ⟨rfl, hbytes⟩
    subst hb
    exact ⟨rfl, Nat.lt_of_not_le hlt, hfits, hbytes⟩
  complete entry hentry := by
    refine accepts_offset_bind fun _ => (codes_readU32.complete entry.axis hentry.axis_fits).bind ?_
    rintro _ rfl
    refine Accepts.guard (Nat.not_le.mpr hentry.axis_lt)
      ((codes_readI64.complete entry.bytes hentry.bytes).bind_pure ?_)
    rintro _ rfl
    rfl

/-! ### The layout body -/

/-- What the descriptors, the permutation and the axes satisfy together. -/
structure ShapeWellFormed (symbolCount : Nat) (src dst : TensorDesc) (perm : List Nat)
    (axes : List Axis) : Prop where
  src_wf : src.WellFormed symbolCount
  dst_wf : dst.WellFormed symbolCount
  axes_pos : 1 ≤ axes.length
  axes_lt : axes.length < 2 ^ 32
  axes_wf : ∀ axis ∈ axes, axis.WellFormed symbolCount
  perm_wf : IsPermutation axes.length perm
  dst_rank : dst.extents.length = axes.length

/-- What the decoder guarantees of the sections after the symbol table. -/
structure RelocationPlan.LayoutWellFormed (plan : RelocationPlan) : Prop where
  shape : ShapeWellFormed plan.symbols.length plan.src plan.dst plan.perm plan.axes
  padFill_lt : plan.padFill.length < 2 ^ 32
  padFill : ∀ pad ∈ plan.padFill, pad.WellFormed plan.symbols.length plan.axes.length
  divisibility_lt : plan.divisibility.length < 2 ^ 32
  divisibility : ∀ entry ∈ plan.divisibility, entry.WellFormed plan.symbols.length
  alignment_lt : plan.alignment.length < 2 ^ 32
  alignment : ∀ entry ∈ plan.alignment, entry.WellFormed plan.axes.length
  contiguity_count : plan.contiguity.length = 0 ∨ plan.contiguity.length = plan.axes.length
  inverse_count : plan.inverse.length = plan.axes.length
  inverse : ∀ stream ∈ plan.inverse,
    stream.WellFormed ⟨.inverse, plan.symbols.length, plan.axes.length⟩

/-- Sections 3 to 6 with the cross-checks made after the axes. -/
def parseShape (symbolCount : Nat) : Read (TensorDesc × TensorDesc × List Nat × List Axis) := do
  let src ← parseTensorDesc symbolCount
  let dstAt ← offset
  let dst ← parseTensorDesc symbolCount
  let permAt ← offset
  let perm ← readVector "perm count" readU32
  let axes ← readVectorIf "axes count" (1 ≤ ·) "axis count must be >= 1" (parseAxis symbolCount)
  if perm.length ≠ axes.length then failAt permAt "perm size must equal the axis count"
  else if firstBadEntry axes.length [] (perm.map Int.ofNat) ≠ none then
    failAt permAt "perm is not a permutation of [0, axis count)"
  else if dst.extents.length ≠ axes.length then
    failAt dstAt "dst rank must equal the axis count"
  else pure (src, dst, perm, axes)

/-- Section 12: a square map on the axes. -/
def parseInverse (symbolCount axisCount : Nat) : Read (List ExprStream) := do
  let numDimsAt ← offset
  let numDims ← readU32
  let numResultsAt ← offset
  let numResults ← readU32
  if numDims ≠ axisCount then failAt numDimsAt "inverse num_dims must equal the axis count"
  else if numResults ≠ axisCount then
    failAt numResultsAt "inverse num_results must equal the axis count"
  else readElements (parseExpr ⟨.inverse, symbolCount, numDims⟩) numResults

/-- `parseLayoutBody`: sections 3 to 12 over a given symbol table. -/
def parseLayoutBody (symbols : List Name) : Read RelocationPlan := do
  let (src, dst, perm, axes) ← parseShape symbols.length
  let padFill ← readVector "pad_fill count" (parsePadFill symbols.length axes.length)
  let divisibility ← readVector "divisibility count" (parseDivisibility symbols.length)
  let alignment ← readVector "alignment count" (parseAlignment axes.length)
  let contiguity ← readVectorIf "contiguity count" (fun count => count = 0 ∨ count = axes.length)
    "contiguity count must be 0 or the axis count"
    (readEnum .flag "contiguity flag must be 0 or 1")
  let noCopy ← readEnum .flag "no_copy flag must be 0 or 1"
  let runtimePadCheck ← readEnum .flag "runtime_pad_check flag must be 0 or 1"
  let inverse ← parseInverse symbols.length axes.length
  pure { symbols, src, dst, perm, axes, padFill, divisibility, alignment, contiguity, noCopy,
         runtimePadCheck, inverse }

def writeFlag (flag : Bool) : List UInt8 := writeU8 (ByteTable.flag.toByte flag)

def writeShape (src dst : TensorDesc) (perm : List Nat) (axes : List Axis) : List UInt8 :=
  writeTensorDesc src ++ writeTensorDesc dst ++ writeVector writeU32 perm ++
    writeVector writeAxis axes

def writeInverse (inverse : List ExprStream) : List UInt8 :=
  writeU32 inverse.length ++ writeU32 inverse.length ++ inverse.flatMap writeStream

def writeLayoutBody (plan : RelocationPlan) : List UInt8 :=
  writeShape plan.src plan.dst plan.perm plan.axes ++ writeVector writePadFill plan.padFill ++
    writeVector writeDivisibility plan.divisibility ++ writeVector writeAlignment plan.alignment ++
    writeVector writeFlag plan.contiguity ++ writeFlag plan.noCopy ++
    writeFlag plan.runtimePadCheck ++ writeInverse plan.inverse

theorem codes_readFlag (message : String) :
    Codes (readEnum .flag message) (fun _ => True) writeFlag := codes_readEnum .flag message

theorem codes_readPerm : Codes (readVector "perm count" readU32)
    (fun perm => perm.length < 2 ^ 32 ∧ ∀ value ∈ perm, value < 2 ^ 32) (writeVector writeU32) :=
  codes_readVector codes_readU32 fun value _ => by rw [length_writeU32]; omega

theorem codes_readAxes (symbolCount : Nat) :
    Codes (readVectorIf "axes count" (1 ≤ ·) "axis count must be >= 1" (parseAxis symbolCount))
      (fun axes => axes.length < 2 ^ 32 ∧ 1 ≤ axes.length ∧
        ∀ axis ∈ axes, axis.WellFormed symbolCount) (writeVector writeAxis) :=
  codes_readVectorIf (codes_parseAxis symbolCount) fun axis _ => by
    simp only [writeAxis, writeString, List.length_append, length_writeU32]
    omega

theorem codes_parseShape (symbolCount : Nat) :
    Codes (parseShape symbolCount)
      (fun shape => ShapeWellFormed symbolCount shape.1 shape.2.1 shape.2.2.1 shape.2.2.2)
      (fun shape => writeShape shape.1 shape.2.1 shape.2.2.1 shape.2.2.2) where
  sound size := by
    have hdesc := (codes_parseTensorDesc symbolCount).sound size
    refine hdesc.bind fun _ src _ ⟨hb, hsrc⟩ => parses_offset_bind fun _ =>
      hdesc.bind fun _ dst _ ⟨hb', hdst⟩ => parses_offset_bind fun _ =>
        (codes_readPerm.sound size).bind fun _ perm _ ⟨hb'', hperm⟩ =>
          ((codes_readAxes symbolCount).sound size).bind fun _ axes _ ⟨hb₃, haxes⟩ =>
            Parses.guard fun hsize => Parses.guard fun hbijection => Parses.guard fun hrank =>
              parses_pure ?_
    subst hb hb' hb'' hb₃
    rw [not_not] at hsize hbijection hrank
    obtain ⟨hnodup, hlt⟩ := firstBadEntry_perm.mp hbijection
    exact ⟨by simp only [writeShape, List.append_assoc, List.append_nil],
      { src_wf := hsrc, dst_wf := hdst, axes_pos := haxes.2.1, axes_lt := haxes.1,
        axes_wf := haxes.2.2, perm_wf := ⟨hsize, hnodup, hlt⟩, dst_rank := hrank }⟩
  complete := by
    rintro ⟨src, dst, perm, axes⟩ hshape
    have hdesc := (codes_parseTensorDesc symbolCount).complete
    have hperm_lt : ∀ value ∈ perm, value < 2 ^ 32 := fun value hvalue =>
      (hshape.perm_wf.lt value hvalue).trans hshape.axes_lt
    simp only [writeShape, List.append_assoc]
    refine (hdesc src hshape.src_wf).bind ?_
    rintro _ rfl
    refine accepts_offset_bind fun _ => (hdesc dst hshape.dst_wf).bind ?_
    rintro _ rfl
    refine accepts_offset_bind fun _ =>
      (codes_readPerm.complete perm
        ⟨by rw [hshape.perm_wf.length_eq]; exact hshape.axes_lt, hperm_lt⟩).bind ?_
    rintro _ rfl
    rw [← List.append_nil (writeVector writeAxis axes)]
    refine ((codes_readAxes symbolCount).complete axes
      ⟨hshape.axes_lt, hshape.axes_pos, hshape.axes_wf⟩).bind ?_
    rintro _ rfl
    refine Accepts.guard (not_not.mpr hshape.perm_wf.length_eq) (Accepts.guard (not_not.mpr
      (firstBadEntry_perm.mpr ⟨hshape.perm_wf.nodup, hshape.perm_wf.lt⟩))
      (Accepts.guard (not_not.mpr hshape.dst_rank) (accepts_pure rfl)))

theorem parses_parseInverse {size symbolCount axisCount : Nat} (hsize : axisCount ≤ size) :
    Parses size (parseInverse symbolCount axisCount) fun bytes inverse =>
      bytes = writeInverse inverse ∧ inverse.length = axisCount ∧
        ∀ stream ∈ inverse, stream.WellFormed ⟨.inverse, symbolCount, axisCount⟩ := by
  refine parses_offset_bind fun _ => (codes_readU32.sound size).bind fun _ numDims _ ⟨hb, _⟩ =>
    parses_offset_bind fun _ => (codes_readU32.sound size).bind fun _ numResults _ ⟨hb', _⟩ =>
      Parses.guard fun hdims => Parses.guard fun hresults => ?_
  rw [not_not] at hdims hresults
  subst hb hb' hdims hresults
  refine (parses_readElements (codes_parseExpr _).via hsize).mono ?_
  rintro _ inverse _ ⟨rfl, hlength, hall⟩
  rw [List.map_id'] at hlength hall ⊢
  exact ⟨by simp only [writeInverse, hlength, List.append_assoc], hlength, hall⟩

theorem accepts_parseInverse {symbolCount : Nat} {inverse : List ExprStream}
    (hlt : inverse.length < 2 ^ 32)
    (hall : ∀ stream ∈ inverse, stream.WellFormed ⟨.inverse, symbolCount, inverse.length⟩) :
    Accepts (parseInverse symbolCount inverse.length) (writeInverse inverse) (· = inverse) := by
  simp only [writeInverse, List.append_assoc]
  refine accepts_offset_bind fun _ => (codes_readU32.complete _ hlt).bind ?_
  rintro _ rfl
  refine accepts_offset_bind fun _ => (codes_readU32.complete _ hlt).bind ?_
  rintro _ rfl
  exact Accepts.guard (not_not.mpr rfl) (Accepts.guard (not_not.mpr rfl)
    ((accepts_readElements (codes_parseExpr _).via length_writeStream_pos hall).mono
      fun _ hresult => by rwa [List.map_id'] at hresult))

theorem codes_readPads (symbolCount axisCount : Nat) :
    Codes (readVector "pad_fill count" (parsePadFill symbolCount axisCount))
      (fun pads => pads.length < 2 ^ 32 ∧ ∀ pad ∈ pads, pad.WellFormed symbolCount axisCount)
      (writeVector writePadFill) :=
  codes_readVector (codes_parsePadFill symbolCount axisCount) fun pad _ => by
    simp only [writePadFill, List.length_append, length_writeU32]
    omega

theorem codes_readDivisibility (symbolCount : Nat) :
    Codes (readVector "divisibility count" (parseDivisibility symbolCount))
      (fun entries => entries.length < 2 ^ 32 ∧ ∀ entry ∈ entries, entry.WellFormed symbolCount)
      (writeVector writeDivisibility) :=
  codes_readVector (codes_parseDivisibility symbolCount) fun entry _ => by
    simp only [writeDivisibility, List.length_append, length_writeI64]
    omega

theorem codes_readAlignment (axisCount : Nat) :
    Codes (readVector "alignment count" (parseAlignment axisCount))
      (fun entries => entries.length < 2 ^ 32 ∧ ∀ entry ∈ entries, entry.WellFormed axisCount)
      (writeVector writeAlignment) :=
  codes_readVector (codes_parseAlignment axisCount) fun entry _ => by
    simp only [writeAlignment, List.length_append, length_writeU32]
    omega

theorem codes_readContiguity (axisCount : Nat) :
    Codes (readVectorIf "contiguity count" (fun count => count = 0 ∨ count = axisCount)
        "contiguity count must be 0 or the axis count"
        (readEnum .flag "contiguity flag must be 0 or 1"))
      (fun flags => flags.length < 2 ^ 32 ∧ (flags.length = 0 ∨ flags.length = axisCount) ∧
        ∀ flag ∈ flags, True) (writeVector writeFlag) :=
  codes_readVectorIf (codes_readFlag _) fun _ _ => Nat.le_refl 1

theorem codes_parseLayoutBody (symbols : List Name) :
    Codes (parseLayoutBody symbols)
      (fun plan => plan.symbols = symbols ∧ plan.LayoutWellFormed) writeLayoutBody where
  sound size := by
    refine ((codes_parseShape symbols.length).sound size).bind ?_
    rintro bshape ⟨src, dst, perm, axes⟩ hbshape ⟨hb, hshape⟩
    -- the axes were read from the buffer, so there are no more of them than bytes
    have haxes_le : axes.length ≤ size := by
      have hle : axes.length ≤ (axes.flatMap writeAxis).length :=
        length_le_length_flatMap fun axis _ => by
          simp only [writeAxis, writeString, List.length_append, length_writeU32]
          omega
      rw [hb] at hbshape
      simp only [writeShape, writeVector, List.length_append] at hbshape
      omega
    refine ((codes_readPads symbols.length axes.length).sound size).bind ?_
    rintro _ pads _ ⟨hb₁, hpads⟩
    refine ((codes_readDivisibility symbols.length).sound size).bind ?_
    rintro _ divs _ ⟨hb₂, hdivs⟩
    refine ((codes_readAlignment axes.length).sound size).bind ?_
    rintro _ aligns _ ⟨hb₃, haligns⟩
    refine ((codes_readContiguity axes.length).sound size).bind ?_
    rintro _ flags _ ⟨hb₄, hflags⟩
    refine ((codes_readFlag _).sound size).bind ?_
    rintro _ noCopy _ ⟨hb₅, -⟩
    refine ((codes_readFlag _).sound size).bind ?_
    rintro _ check _ ⟨hb₆, -⟩
    refine (parses_parseInverse haxes_le).bind_pure ?_
    rintro _ inverse ⟨rfl, hcount, hinverse⟩
    subst hb hb₁ hb₂ hb₃ hb₄ hb₅ hb₆
    exact ⟨by simp only [writeLayoutBody, List.append_assoc], rfl,
      { shape := hshape, padFill_lt := hpads.1, padFill := hpads.2, divisibility_lt := hdivs.1,
        divisibility := hdivs.2, alignment_lt := haligns.1, alignment := haligns.2,
        contiguity_count := hflags.2.1, inverse_count := hcount, inverse := hinverse }⟩
  complete := by
    rintro plan ⟨rfl, hplan⟩
    have hcontiguity_lt : plan.contiguity.length < 2 ^ 32 := by
      have haxes_lt := hplan.shape.axes_lt
      rcases hplan.contiguity_count with h | h <;> omega
    have hinverse := accepts_parseInverse
      (hplan.inverse_count ▸ hplan.shape.axes_lt) (hplan.inverse_count ▸ hplan.inverse)
    rw [hplan.inverse_count] at hinverse
    simp only [writeLayoutBody, List.append_assoc]
    refine ((codes_parseShape plan.symbols.length).complete
      (plan.src, plan.dst, plan.perm, plan.axes) hplan.shape).bind ?_
    rintro _ rfl
    refine ((codes_readPads _ _).complete plan.padFill ⟨hplan.padFill_lt, hplan.padFill⟩).bind ?_
    rintro _ rfl
    refine ((codes_readDivisibility _).complete plan.divisibility
      ⟨hplan.divisibility_lt, hplan.divisibility⟩).bind ?_
    rintro _ rfl
    refine ((codes_readAlignment _).complete plan.alignment
      ⟨hplan.alignment_lt, hplan.alignment⟩).bind ?_
    rintro _ rfl
    refine ((codes_readContiguity _).complete plan.contiguity
      ⟨hcontiguity_lt, hplan.contiguity_count, fun _ _ => trivial⟩).bind ?_
    rintro _ rfl
    refine ((codes_readFlag _).complete plan.noCopy trivial).bind ?_
    rintro _ rfl
    refine ((codes_readFlag _).complete plan.runtimePadCheck trivial).bind ?_
    rintro _ rfl
    refine hinverse.bind_pure ?_
    rintro _ rfl
    rfl

/-! ### The header and the whole plan -/

/-- The versions of the format. -/
def kWireFormatVersion : Nat := 0
def kTypedWireFormatVersion : Nat := 1
def kIndexedWireFormatVersion : Nat := 2

/-- The bytes of `RPLN`. -/
def magic : List UInt8 := [0x52, 0x50, 0x4c, 0x4e]

/-- `parseHeader`: magic, the expected version, the symbol table. -/
def parseHeader (expected : Nat) : Read (List Name) := do
  let found ← readFixed 4 "truncated: expected magic"
  if found ≠ magic then failAt 0 "bad magic (expected RPLN)"
  else do
    let versionAt ← offset
    let version ← readU32
    if version ≠ expected then failAt versionAt "unsupported wire format version"
    else readVector "symbol table count" readString

structure SymbolsWellFormed (symbols : List Name) : Prop where
  count_lt : symbols.length < 2 ^ 32
  each : ∀ name ∈ symbols, name.length < 2 ^ 32

def writeHeader (version : Nat) (symbols : List Name) : List UInt8 :=
  magic ++ writeU32 version ++ writeVector writeString symbols

theorem codes_parseHeader {expected : Nat} (hexpected : expected < 2 ^ 32) :
    Codes (parseHeader expected) SymbolsWellFormed (writeHeader expected) where
  sound size := by
    have hstring : ∀ name : Name, name.length < 2 ^ 32 → 1 ≤ (writeString name).length := by
      intro name _
      simp only [writeString, List.length_append, length_writeU32]
      omega
    refine (parses_readFixed size 4 _).bind ?_
    rintro _ found _ ⟨hb, -⟩
    refine Parses.guard fun hmagic =>
      parses_offset_bind fun _ => (codes_readU32.sound size).bind ?_
    rintro _ version _ ⟨hb', -⟩
    refine Parses.guard fun hversion =>
      ((codes_readVector codes_readString hstring).sound size).mono ?_
    rw [not_not] at hmagic hversion
    rintro _ symbols _ ⟨rfl, hsymbols⟩
    subst hb hb' hmagic hversion
    exact ⟨by simp only [writeHeader, List.append_assoc], hsymbols.1, hsymbols.2⟩
  complete symbols hsymbols := by
    have hstring : ∀ name : Name, name.length < 2 ^ 32 → 1 ≤ (writeString name).length := by
      intro name _
      simp only [writeString, List.length_append, length_writeU32]
      omega
    simp only [writeHeader, List.append_assoc]
    refine (accepts_readFixed magic _).bind ?_
    rintro _ rfl
    refine Accepts.guard (not_not.mpr rfl) (accepts_offset_bind fun _ =>
      (codes_readU32.complete expected hexpected).bind ?_)
    rintro _ rfl
    exact Accepts.guard (not_not.mpr rfl)
      ((codes_readVector codes_readString hstring).complete symbols
        ⟨hsymbols.count_lt, hsymbols.each⟩)

/-- What the decoder guarantees of a v0 plan. -/
structure RelocationPlan.WellFormed (plan : RelocationPlan) : Prop where
  symbols : SymbolsWellFormed plan.symbols
  layout : plan.LayoutWellFormed

def planReader : Read RelocationPlan := do
  let symbols ← parseHeader kWireFormatVersion
  parseLayoutBody symbols

def writePlan (plan : RelocationPlan) : List UInt8 :=
  writeHeader kWireFormatVersion plan.symbols ++ writeLayoutBody plan

theorem codes_planReader : Codes planReader RelocationPlan.WellFormed writePlan where
  sound size := by
    refine ((codes_parseHeader (by decide)).sound size).bind fun _ symbols _ ⟨hb, hsymbols⟩ =>
      ((codes_parseLayoutBody symbols).sound size).mono ?_
    rintro _ plan _ ⟨rfl, rfl, hplan⟩
    subst hb
    exact ⟨rfl, hsymbols, hplan⟩
  complete plan hplan := by
    refine ((codes_parseHeader (by decide)).complete plan.symbols hplan.symbols).bind ?_
    rintro _ rfl
    exact (codes_parseLayoutBody plan.symbols).complete plan ⟨rfl, hplan.layout⟩

/-- `decodePlan`. -/
def decodePlan (data : List UInt8) : Outcome DecodeError RelocationPlan :=
  decodeAll planReader "trailing bytes after inverse section" (fun _ plan => .ok plan) data

/-- A buffer decodes to a plan exactly when the plan is well formed and the
    buffer is its encoding. -/
theorem decodePlan_eq_ok {data : List UInt8} {plan : RelocationPlan} :
    decodePlan data = .ok plan ↔ plan.WellFormed ∧ data = writePlan plan := by
  rw [decodePlan, decodeAll_eq_ok codes_planReader.via]
  constructor
  · rintro ⟨value, -, hwf, hdata, hvalue⟩
    cases hvalue
    exact ⟨hwf, hdata⟩
  · rintro ⟨hwf, rfl⟩
    obtain ⟨found, hread, rfl⟩ := reads_write codes_planReader.via hwf
    exact ⟨found, hread, hwf, rfl, rfl⟩

theorem safe_decodePlan (data : List UInt8) : (decodePlan data).Safe :=
  safe_decodeAll codes_planReader.via (fun _ plan _ => Outcome.safe_ok plan) data

end SymReloc
