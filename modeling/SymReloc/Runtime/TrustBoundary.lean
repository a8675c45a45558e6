import SymReloc.Runtime.BindTyped

/-!
# The decoder as trust boundary

Everything after the decoder indexes into plans under invariants the decoder
established.  Here the binder of typed plans is shown to stay inside its vectors
and to report no structural error on a decoded plan, and `decoders_trusted`
collects what a decoded plan guarantees for all three wire versions.
-/

namespace SymReloc

open Outcome

/-! ### Descriptors -/

theorem ensures_evalAll {symbolCount : Nat} {streams : List ExprStream} {symbols : List Int}
    (h : ∀ stream ∈ streams, stream.WellFormed (.plan symbolCount))
    (hsymbols : symbols.length = symbolCount) (what : String) :
    (evalAll streams symbols what).Ensures BindError.OfValues
      fun values => values.length = streams.length :=
  ensures_length_mapEach fun stream hstream => ensures_evalField (h stream hstream) hsymbols what

theorem ensures_checkDenseStrides (what : String) {extents strides : List Int} {k : Nat}
    (hextents : k ≤ extents.length) (hstrides : k ≤ strides.length) (running : Int) :
    (checkDenseStrides what extents strides k running).Ensures BindError.OfValues
      fun _ => True := by
  induction k generalizing running with
  | zero => trivial
  | succ k ih =>
      refine (ensures_fetch (by omega)).bind fun stride _ => (ensures_requireRefused _).bind
        fun _ _ => (ensures_fetch (by omega)).bind fun extent _ => (ensures_refused _).bind
          fun _ _ => ih (by omega) (by omega) _

theorem ensures_concreteDenseDescriptor {symbolCount : Nat} {desc : TensorDesc}
    {symbols : List Int} (h : desc.WellFormed symbolCount) (hsymbols : symbols.length = symbolCount)
    (what : String) :
    (concreteDenseDescriptor desc symbols what).Ensures BindError.OfValues
      fun extents => extents.length = desc.extents.length := by
  refine (ensures_evalAll h.extents.each hsymbols what).bind fun extents hextents => ?_
  refine (ensures_requireRefused _).bind fun _ _ => (ensures_requireRefused _).bind fun _ _ =>
    (ensures_evalField h.offset hsymbols what).bind fun offset _ =>
      (ensures_requireRefused _).bind fun _ _ => ?_
  refine ensures_ite (fun _ => hextents) fun hstrides => ?_
  refine (ensures_evalAll h.strides.each hsymbols what).bind fun strides hlength => ?_
  -- strides are elided or as many as the extents, so the walk stays inside them
  have hcount : desc.strides.length = desc.extents.length := by
    rcases h.stride_count with hzero | hcount
    · exact absurd (List.length_eq_zero_iff.mp hzero) hstrides
    · exact hcount
  exact (ensures_checkDenseStrides what le_rfl (by omega) 1).bind fun _ _ => hextents

theorem ensures_checkedProduct (text : String) (extents : List Int) (product : Int) :
    (checkedProduct text extents product).Ensures BindError.OfValues fun _ => True := by
  induction extents generalizing product with
  | nil => trivial
  | cons extent rest ih => exact (ensures_refused _).bind fun _ _ => ih _

/-! ### Parameters -/

/-- The bytes of a bound parameter hold all its values, and those of a scale are
    four bytes wide. -/
structure BoundParameter.Sized (param : BoundParameter) (isScale : Bool) : Prop where
  bytes : param.length.toNat * byteWidth param.elementType ≤ param.bytes.length
  scale : isScale = true → byteWidth param.elementType = 4

theorem ensures_readParameter {bytes : List UInt8} {index length width : Nat}
    (hindex : index < length) (hbytes : length * width ≤ bytes.length) :
    (readParameter bytes (index * width) width).Ensures BindError.OfValues fun _ => True := by
  have hle : index * width + width ≤ bytes.length := by
    have hmul : (index + 1) * width ≤ length * width := Nat.mul_le_mul_right width hindex
    rw [Nat.add_mul, Nat.one_mul] at hmul
    omega
  rw [readParameter, if_pos hle]
  trivial

theorem ensures_checkParameterValues {param : BoundParameter} {isScale : Bool}
    (h : param.Sized isScale) (policy : NumericPolicyKind) :
    (checkParameterValues param isScale policy).Ensures BindError.OfValues fun _ => True := by
  refine ensures_forEach fun index hmem => ?_
  have hindex := List.mem_range.mp hmem
  refine ensures_ite (fun hscale => ?_) fun _ => ?_
  · have hwidth := h.scale hscale
    have hbytes := h.bytes
    rw [hwidth] at hbytes ⊢
    exact (ensures_readParameter hindex hbytes).bind fun _ _ => ensures_requireRefused _
  · exact (ensures_readParameter hindex h.bytes).bind fun _ _ =>
      (ensures_requireRefused _).bind fun _ _ => ensures_requireRefused _

theorem length_fromInline (elementType : ElementType) (inlineBits : List Nat) :
    (fromInline elementType inlineBits).bytes.length =
      inlineBits.length * byteWidth elementType := by
  unfold fromInline
  induction inlineBits with
  | nil => simp
  | cons bits rest ih =>
      simp only [List.flatMap_cons, List.length_append, length_leBytes, List.length_cons] at ih ⊢
      rw [ih, Nat.add_mul, Nat.one_mul]
      omega

theorem ensures_expectedLength {shape : List Int} {axis : Int} {rank : Nat}
    (h : rank = 0 ∨ (0 ≤ axis ∧ axis.toNat < shape.length)) :
    (expectedLength shape axis rank).Ensures BindError.OfValues fun _ => True := by
  unfold expectedLength
  by_cases hrank : rank = 0
  · rw [if_pos hrank]
    trivial
  · have hrange := h.resolve_left hrank
    rw [if_neg hrank, if_pos hrange.1]
    exact (ensures_fetch hrange.2).mono fun _ _ => trivial

theorem ofValues_paramText (name : Name) (text : String) : (paramText name text).OfValues :=
  ofValues_refused _

theorem ensures_requireParam {c : Prop} [Decidable c] (name : Name) (text : String) :
    (require c (paramText name text)).Ensures BindError.OfValues fun _ => c :=
  ensures_require (ofValues_paramText name text)

/-- A bound value has the bytes of its declaration. -/
theorem ensures_bindValue {symbolCount : Nat} {symbols : List Int} (parameters : ParameterMap)
    (expected : Int) {name : Name} {extents : List ExprStream} {elementType : ElementType}
    (h : (StageParam.binding name extents elementType).WellFormed symbolCount)
    (hsymbols : symbols.length = symbolCount) {isScale : Bool}
    (hscale : isScale = true → byteWidth elementType = 4) :
    (bindValue symbols parameters expected name extents elementType).Ensures BindError.OfValues
      fun param => param.Sized isScale := by
  obtain ⟨-, -, hrank, hextents, -⟩ := h
  unfold bindValue
  split
  · exact ofValues_refused _
  · rename_i value hvalue
    refine (ensures_requireParam _ _).bind fun _ _ => (ensures_requireParam _ _).bind
      fun _ hvalueRank => Ensures.andThen ?_ fun declaredLength =>
        (ensures_requireParam _ _).bind fun _ _ => ?_
    · unfold bindValue.declaredExtent
      refine ensures_ite (fun hone => ?_) fun _ => trivial
      exact (ensures_fetch (by omega)).bind fun extent hextent =>
        ensures_evalField (hextents extent hextent) hsymbols _
    · -- the remaining checks compare lengths; the last one fixes the byte count
      have hrest : ∀ valueLength : Int, Ensures (do
          require (valueLength = expected)
            (paramText name (" has length " ++ toString valueLength ++
              " but the channel extent is " ++ toString expected))
          let needed ← checkedOr (expected * byteWidth elementType)
            (.refused "parameter byte count overflows")
          require ((value.bytes.length : Int) = needed)
            (paramText name (" has " ++ toString value.bytes.length ++ " bytes, expected " ++
              toString needed))
          pure ({ elementType, length := expected, bytes := value.bytes, bindingName := name } :
            BoundParameter)) BindError.OfValues fun param => param.Sized isScale := by
        intro valueLength
        refine (ensures_requireParam _ _).bind fun _ _ =>
          (ensures_checkedOr (ofValues_refused _)).bind fun needed hneeded =>
            (ensures_requireParam _ _).bind fun _ hbytes => ?_
        refine ⟨?_, hscale⟩
        rw [hneeded.2] at hbytes
        rcases Int.le_total 0 expected with hnonneg | hneg
        · have hnat : ((expected.toNat * byteWidth elementType : Nat) : Int) =
              value.bytes.length := by
            rw [Nat.cast_mul, Int.toNat_of_nonneg hnonneg, hbytes]
          exact (Int.ofNat_inj.mp hnat).le
        · have hzero : expected.toNat = 0 := Int.toNat_eq_zero.mpr hneg
          simp only [hzero, Nat.zero_mul, Nat.zero_le]
      by_cases hzero : extents.length = 0
      · simp only [hzero, if_true, pure_eq, ok_bind]
        exact hrest 1
      · simp only [hzero, if_false]
        exact (ensures_fetch (by omega)).bind fun valueLength _ => hrest valueLength

/-- A declared parameter binds without leaving the stage's shape. -/
theorem ensures_bindParameter {symbolCount : Nat} {symbols : List Int} (parameters : ParameterMap)
    {stage : ValueStage} {shape : List Int} {isScale : Bool} {declared : StageParam}
    (h : declared.WellFormed symbolCount) (hsymbols : symbols.length = symbolCount)
    (hrank : declared.rank = 0 ∨ (0 ≤ stage.axis ∧ stage.axis.toNat < shape.length))
    (hscale : isScale = true → declared ≠ .none → byteWidth declared.elementType = 4) :
    (bindParameter symbols parameters stage shape isScale declared).Ensures BindError.OfValues
      fun _ => True := by
  have htarget : ∀ target : BoundParameter, target.Sized isScale →
      (bindParameter.checkTarget stage isScale target).Ensures BindError.OfValues
        fun _ => True := by
    intro target hsized
    refine Ensures.andThen ?_ fun _ => trivial
    exact (ensures_checkParameterValues hsized stage.policy).mapError fun _ herror => herror
  cases declared with
  | none => trivial
  | inline rank elementType inlineBits =>
      refine (ensures_expectedLength hrank).bind fun expected _ =>
        (ensures_requireRefused _).bind fun _ _ => (ensures_requireRefused _).bind fun _ _ =>
          htarget _ ⟨?_, fun h => hscale h (by simp)⟩
      rw [length_fromInline]
      exact le_rfl
  | binding name extents elementType =>
      exact (ensures_expectedLength hrank).bind fun expected _ =>
        (ensures_requireRefused _).bind fun _ _ =>
          (ensures_bindValue parameters expected h hsymbols fun hs => hscale hs (by simp)).bind
            fun target hsized => htarget target hsized

/-! ### Stages -/

/-- What the decoder's checks mean for the accesses of the binder. -/
theorem ValueStage.Valid.accesses {stage : ValueStage} (h : stage.Valid) :
    (0 ≤ stage.axis → stage.axis.toNat < stage.shape.length) ∧
      (∀ param ∈ [stage.scale, stage.zeroPoint], param.rank = 0 ∨
        (0 ≤ stage.axis ∧ stage.axis.toNat < stage.shape.length)) ∧
      (stage.scale ≠ .none → byteWidth stage.scale.elementType = 4) := by
  have hparams : stage.ParametersValid →
      (0 ≤ stage.axis → stage.axis.toNat < stage.shape.length) ∧
      (∀ param ∈ [stage.scale, stage.zeroPoint], param.rank = 0 ∨
        (0 ≤ stage.axis ∧ stage.axis.toNat < stage.shape.length)) ∧
      (stage.scale ≠ .none → byteWidth stage.scale.elementType = 4) := by
    intro hvalid
    have hwidth : byteWidth stage.scale.elementType = 4 := by
      simp [byteWidth, hvalid.scale_type.2]
    by_cases haxis : stage.axis = -1
    · have hranks := hvalid.perTensor haxis
      refine ⟨fun hnonneg => by omega, ?_, fun _ => hwidth⟩
      simp only [List.mem_cons, List.not_mem_nil, or_false, forall_eq_or_imp, forall_eq]
      exact ⟨Or.inl hranks.1, Or.inl hranks.2.1⟩
    · have hrange := (hvalid.perChannel haxis).1
      exact ⟨fun _ => hrange.2, fun _ _ => Or.inr hrange, fun _ => hwidth⟩
  unfold ValueStage.Valid at h
  split at h
  · obtain ⟨-, hscale, hzero, haxis, -⟩ := h
    refine ⟨fun hnonneg => by omega, ?_, fun hne => absurd hscale hne⟩
    simp only [hscale, hzero, List.mem_cons, List.not_mem_nil, or_false, or_self, forall_eq]
    exact Or.inl rfl
  · exact hparams h.2
  · exact hparams h.2

theorem ensures_addParameterBytes (total : Int) (param : Option BoundParameter) :
    (addParameterBytes total param).Ensures BindError.OfValues fun _ => True := by
  cases param with
  | none => trivial
  | some param => exact ensures_refused _

theorem ensures_bindStage {symbolCount resultRank : Nat} {symbols : List Int}
    (parameters : ParameterMap) {stage : ValueStage}
    (hwf : stage.WellFormed symbolCount resultRank) (hvalid : stage.Valid)
    (hsymbols : symbols.length = symbolCount) (total : Int) :
    (bindStage symbols parameters stage total).Ensures BindError.OfValues fun _ => True := by
  obtain ⟨haxis, hranks, hscale⟩ := hvalid.accesses
  refine (ensures_evalAll hwf.shape.each hsymbols _).bind fun shape hshape =>
    (ensures_requireRefused _).bind fun _ _ => ?_
  rw [require, if_pos (hshape ▸ haxis), ok_bind]
  refine (ensures_bindParameter parameters hwf.scale hsymbols (hshape ▸ hranks _ (by simp))
    fun _ => hscale).bind fun scale _ => (ensures_addParameterBytes _ _).bind fun total _ => ?_
  refine (ensures_bindParameter parameters hwf.zeroPoint hsymbols (hshape ▸ hranks _ (by simp))
    fun hs => absurd hs (by simp)).bind fun zeroPoint _ => ?_
  exact (ensures_addParameterBytes _ _).bind fun _ _ => trivial

theorem ensures_bindStages {symbolCount resultRank : Nat} {symbols : List Int}
    (parameters : ParameterMap) {stages : List ValueStage}
    (hwf : ∀ stage ∈ stages, stage.WellFormed symbolCount resultRank)
    (hvalid : ∀ stage ∈ stages, stage.Valid) (hsymbols : symbols.length = symbolCount)
    (total : Int) :
    (bindStages symbols parameters stages total).Ensures BindError.OfValues fun _ => True := by
  induction stages generalizing total with
  | nil => trivial
  | cons stage rest ih =>
      refine (ensures_bindStage parameters (hwf stage (by simp)) (hvalid stage (by simp)) hsymbols
        total).bind fun bound _ => ?_
      exact (ih (fun s hs => hwf s (by simp [hs])) (fun s hs => hvalid s (by simp [hs])) _).bind
        fun _ _ => trivial

/-! ### Footprints -/

theorem ensures_padFootprint {plan : RelocationPlan} (hplan : plan.LayoutWellFormed)
    (fills : List TypedFill) {symbols : List Int}
    (hsymbols : symbols.length = plan.symbols.length) {pads : List PadFill}
    (hpads : ∀ pad ∈ pads, pad ∈ plan.padFill) {found : List (Int × Nat)}
    (hfound : found.length = plan.axes.length) :
    (padFootprint fills symbols pads found).Ensures BindError.OfValues fun _ => True := by
  induction pads generalizing found with
  | nil => trivial
  | cons pad rest ih =>
      have hwf := hplan.padFill pad (hpads pad (by simp))
      have hlt : pad.dstAxis < found.length := hfound ▸ hwf.dstAxis_lt
      unfold padFootprint
      rw [require, if_pos hlt, ok_bind]
      refine (ensures_evalField hwf.lo hsymbols _).bind fun lo _ =>
        (ensures_evalField hwf.hi hsymbols _).bind fun hi _ => (ensures_refused _).bind fun _ _ =>
          (ensures_requireRefused _).bind fun _ _ => (ensures_fetch hlt).bind fun old _ => ?_
      exact ih (fun p hp => hpads p (by simp [hp])) (by rw [List.length_set, hfound])

theorem ensures_cutElements (boundary : Nat) (axes : List (Int × (Int × Nat))) (elements : Int) :
    (cutElements boundary axes elements).Ensures BindError.OfValues fun _ => True := by
  induction axes generalizing elements with
  | nil => trivial
  | cons axis rest ih =>
      obtain ⟨extent, width, stage⟩ := axis
      refine ensures_ite (fun _ => ?_) fun _ => ?_
      · exact (ensures_refused _).bind fun _ _ => (ensures_refused _).bind fun _ _ => ih _
      · exact (ensures_refused _).bind fun _ _ => ih _

theorem ensures_bindCut {plan : TypedRelocationPlan} (axes : List (Int × (Int × Nat)))
    {boundary : Nat} (h : boundary ≤ plan.stages.length) :
    (bindCut plan axes boundary).Ensures BindError.OfValues fun _ => True := by
  unfold bindCut
  rw [entryType_eq h, ok_bind]
  exact (ensures_cutElements _ _ _).bind fun _ _ => (ensures_requireRefused _).bind fun _ _ =>
    (ensures_refused _).bind fun _ _ => trivial

/-- Binding a decoded typed plan fails on values only. -/
theorem ensures_bindTyped {plan : TypedRelocationPlan} (hplan : plan.WellFormed) (map : SymbolMap)
    (parameters : ParameterMap) :
    (bindTyped plan map parameters).Ensures BindError.OfValues fun _ => True := by
  have hsections := hplan.sections
  have hcount : plan.layout.symbols.length = plan.symbols.length := by
    rw [hsections.layout_symbols]
  have hlayout : ((bind plan.layout map .auto).mapError (.within "layout: ")).Ensures
      BindError.OfValues fun _ => True :=
    (ensures_bind hsections.layout map .auto).mapError fun _ herror => herror
  refine hlayout.bind fun layout _ =>
    (ensures_resolveSymbols plan.layout.symbols map).bind fun symbols hsymbols => ?_
  have hsymbols' : symbols.length = plan.symbols.length := hsymbols.trans hcount
  refine (ensures_concreteDenseDescriptor hsections.source hsymbols' _).bind
    fun sourceExtents _ => (ensures_concreteDenseDescriptor hsections.result hsymbols' _).bind
      fun resultExtents _ => (ensures_requireRefused _).bind fun _ _ => ?_
  refine (ensures_bindStages parameters hsections.stages hplan.valid.stages hsymbols' 0).bind
    fun bound _ => (ensures_forEach fun _ _ => ensures_requireRefused _).bind fun _ _ =>
      (ensures_checkedProduct _ _ _).bind fun _ _ =>
        (ensures_refused _).bind fun sourceBytes _ => ?_
  refine (ensures_evalAll ?_ hsymbols' _).bind fun axisExtents haxes =>
    (ensures_padFootprint hsections.layout plan.fills hsymbols (fun _ hpad => hpad) ?_).bind
      fun pads _ => ?_
  · intro stream hstream
    obtain ⟨axis, haxis, rfl⟩ := List.mem_map.mp hstream
    exact hcount ▸ (hsections.layout.shape.axes_wf axis haxis).extent
  · rw [List.length_map, haxes, List.length_map]
  · refine (ensures_length_mapEach fun boundary hmem =>
      ensures_bindCut _ (Nat.lt_succ_iff.mp (List.mem_range.mp hmem))).bind fun cuts hcuts => ?_
    refine (ensures_fetch (by rw [hcuts, List.length_range]; omega)).bind fun last _ =>
      (ensures_requireRefused _).bind fun _ _ => (ensures_checkedProduct _ _ _).bind fun _ _ =>
        (ensures_requireRefused _).bind fun _ _ => trivial

/-! ### The three decoders -/

/-- Every stream of a plan evaluates without a structural error. -/
def EvaluatesIn (symbolCount : Nat) (stream : ExprStream) : Prop :=
  ∀ symbols : List Int, symbols.length = symbolCount →
    (evalExpr stream symbols).Ensures EvalError.OfValues fun _ => True

/-- The streams of a descriptor. -/
def TensorDesc.streams (desc : TensorDesc) : List ExprStream :=
  desc.extents ++ desc.strides ++ [desc.offset]

/-- The streams of a layout that are evaluated under symbol values alone. -/
def RelocationPlan.streams (plan : RelocationPlan) : List ExprStream :=
  plan.src.streams ++ plan.dst.streams ++
    plan.axes.flatMap (fun axis => [axis.extent, axis.srcStride, axis.dstStride]) ++
    plan.padFill.flatMap (fun pad => [pad.lo, pad.hi]) ++ plan.divisibility.map Divisibility.expr

theorem TensorDesc.WellFormed.evaluates {symbolCount : Nat} {desc : TensorDesc}
    (h : desc.WellFormed symbolCount) :
    ∀ stream ∈ desc.streams, EvaluatesIn symbolCount stream := by
  intro stream hstream symbols hsymbols
  simp only [TensorDesc.streams, List.mem_append, List.mem_singleton] at hstream
  rcases hstream with (hextent | hstride) | rfl
  · exact (h.extents.each stream hextent).ensures_evalExpr hsymbols
  · exact (h.strides.each stream hstride).ensures_evalExpr hsymbols
  · exact h.offset.ensures_evalExpr hsymbols

theorem RelocationPlan.LayoutWellFormed.evaluates {plan : RelocationPlan}
    (h : plan.LayoutWellFormed) :
    ∀ stream ∈ plan.streams, EvaluatesIn plan.symbols.length stream := by
  intro stream hstream
  simp only [RelocationPlan.streams, List.mem_append, List.mem_flatMap, List.mem_map] at hstream
  rcases hstream with (((hsrc | hdst) | ⟨axis, haxis, hmem⟩) | ⟨pad, hpad, hmem⟩) |
    ⟨entry, hentry, rfl⟩
  · exact h.shape.src_wf.evaluates stream hsrc
  · exact h.shape.dst_wf.evaluates stream hdst
  · have hwf := h.shape.axes_wf axis haxis
    simp only [List.mem_cons, List.not_mem_nil, or_false] at hmem
    rcases hmem with rfl | rfl | rfl
    · exact fun _ hsymbols => hwf.extent.ensures_evalExpr hsymbols
    · exact fun _ hsymbols => hwf.srcStride.ensures_evalExpr hsymbols
    · exact fun _ hsymbols => hwf.dstStride.ensures_evalExpr hsymbols
  · have hwf := h.padFill pad hpad
    simp only [List.mem_cons, List.not_mem_nil, or_false] at hmem
    rcases hmem with rfl | rfl
    · exact fun _ hsymbols => hwf.lo.ensures_evalExpr hsymbols
    · exact fun _ hsymbols => hwf.hi.ensures_evalExpr hsymbols
  · exact fun _ hsymbols => (h.divisibility entry hentry).expr.ensures_evalExpr hsymbols

/-- The channel maps of a decoded typed plan evaluate at every coordinate of the
    result. -/
theorem TypedRelocationPlan.WellFormed.evaluates_channel {plan : TypedRelocationPlan}
    (h : plan.WellFormed) {stage : ValueStage} (hstage : stage ∈ plan.stages)
    {channel : ExprStream} (hchannel : stage.channel = some channel) {symbols dims : List Int}
    (hsymbols : symbols.length = plan.symbols.length)
    (hdims : dims.length = plan.result.extents.length) :
    (evalChannel channel symbols dims).Ensures EvalError.OfValues fun _ => True :=
  ((h.sections.stages stage hstage).channel channel hchannel).ensures_evalChannel hsymbols hdims

/-- On every buffer the decoders stay inside it and reserve no more than it has
    bytes; what they accept is well formed, and evaluating or binding it reports
    no structural error and leaves no vector. -/
theorem decoders_trusted (data : List UInt8) :
    ((decodePlan data).Sat fun plan => plan.WellFormed ∧
      (∀ stream ∈ plan.streams, EvaluatesIn plan.symbols.length stream) ∧
      ∀ map override, (bind plan map override).Ensures BindError.OfValues fun _ => True) ∧
    ((decodeTypedPlan data).Sat fun plan => plan.WellFormed ∧
      (∀ stream ∈ plan.layout.streams ++ plan.source.streams ++ plan.result.streams ++
          plan.stages.flatMap ValueStage.shape, EvaluatesIn plan.symbols.length stream) ∧
      (∀ stage ∈ plan.stages, ∀ channel, stage.channel = some channel → ∀ symbols dims : List Int,
        symbols.length = plan.symbols.length → dims.length = plan.result.extents.length →
          (evalChannel channel symbols dims).Ensures EvalError.OfValues fun _ => True) ∧
      ∀ map parameters, (bindTyped plan map parameters).Ensures BindError.OfValues fun _ => True) ∧
    ((decodeIndexedPlan data).Sat fun plan => plan.WellFormed ∧
      ∀ stream ∈ plan.source.streams ++ plan.indices.streams ++ plan.result.streams,
        EvaluatesIn plan.symbols.length stream) := by
  refine ⟨?_, ?_, ?_⟩
  · refine (safe_decodePlan data).sat_of_ok fun plan hrun => ?_
    have hplan := (decodePlan_eq_ok.mp hrun).1
    exact ⟨hplan, hplan.layout.evaluates, ensures_bind hplan.layout⟩
  · refine (safe_decodeTypedPlan data).sat_of_ok fun plan hrun => ?_
    have hplan := (decodeTypedPlan_eq_ok.mp hrun).1
    refine ⟨hplan, ?_, fun stage hstage channel hchannel symbols dims hsymbols hdims =>
      hplan.evaluates_channel hstage hchannel hsymbols hdims, ensures_bindTyped hplan⟩
    intro stream hstream
    simp only [List.mem_append, List.mem_flatMap] at hstream
    rcases hstream with ((hlayout | hsource) | hresult) | ⟨stage, hstage, hshape⟩
    · have hevaluates := hplan.sections.layout.evaluates stream hlayout
      rwa [hplan.sections.layout_symbols] at hevaluates
    · exact hplan.sections.source.evaluates stream hsource
    · exact hplan.sections.result.evaluates stream hresult
    · exact fun _ hsymbols =>
        ((hplan.sections.stages stage hstage).shape.each stream hshape).ensures_evalExpr hsymbols
  · refine (safe_decodeIndexedPlan data).sat_of_ok fun plan hrun => ?_
    have hplan := (decodeIndexedPlan_eq_ok.mp hrun).1
    refine ⟨hplan, fun stream hstream => ?_⟩
    simp only [List.mem_append] at hstream
    rcases hstream with (hsource | hindices) | hresult
    · exact hplan.sections.source.evaluates stream hsource
    · exact hplan.sections.indices.evaluates stream hindices
    · exact hplan.sections.result.evaluates stream hresult

end SymReloc
