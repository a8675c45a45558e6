import SymReloc.Wire.ValidateTyped

/-!
# Row-selection plans

The v2 form has three descriptors, an axis and a policy byte.  Its static
contract, `validateIndexedPlan`, is shared between the decoder and the binder.
-/

namespace SymReloc

open Reader ByteReader Outcome

/-! ### Reading -/

def indexedPlanReader : Read IndexedRelocationPlan := do
  let symbols ← parseHeader kIndexedWireFormatVersion
  let source ← parseTensorDesc symbols.length
  let indices ← parseTensorDesc symbols.length
  let result ← parseTensorDesc symbols.length
  let axis ← readU32
  let policy ← readU8
  pure { symbols, source, indices, result, axis, policy }

def writeIndexedPlan (plan : IndexedRelocationPlan) : List UInt8 :=
  writeHeader kIndexedWireFormatVersion plan.symbols ++ writeTensorDesc plan.source ++
    writeTensorDesc plan.indices ++ writeTensorDesc plan.result ++ writeU32 plan.axis ++
    writeU8 plan.policy

/-- What the reader guarantees before the static contract is checked. -/
structure IndexedRelocationPlan.SectionsWellFormed (plan : IndexedRelocationPlan) : Prop where
  symbols : SymbolsWellFormed plan.symbols
  source : plan.source.WellFormed plan.symbols.length
  indices : plan.indices.WellFormed plan.symbols.length
  result : plan.result.WellFormed plan.symbols.length
  axis : plan.axis < 2 ^ 32

theorem codes_indexedPlanReader :
    Codes indexedPlanReader IndexedRelocationPlan.SectionsWellFormed writeIndexedPlan where
  sound size := by
    have hdesc := fun symbolCount => (codes_parseTensorDesc symbolCount).sound size
    refine ((codes_parseHeader (by decide)).sound size).bind fun _ symbols _ ⟨hb, hsymbols⟩ =>
      (hdesc _).bind fun _ source _ ⟨hb₁, hsource⟩ =>
        (hdesc _).bind fun _ indices _ ⟨hb₂, hindices⟩ =>
        (hdesc _).bind fun _ result _ ⟨hb₃, hresult⟩ =>
          (codes_readU32.sound size).bind fun _ axis _ ⟨hb₄, haxis⟩ =>
            (codes_readU8.sound size).bind_pure ?_
    rintro _ policy ⟨rfl, -⟩
    subst hb hb₁ hb₂ hb₃ hb₄
    exact ⟨by simp only [writeIndexedPlan, List.append_assoc], hsymbols, hsource, hindices, hresult,
      haxis⟩
  complete plan hplan := by
    simp only [writeIndexedPlan, List.append_assoc]
    refine ((codes_parseHeader (by decide)).complete plan.symbols hplan.symbols).bind ?_
    rintro _ rfl
    refine ((codes_parseTensorDesc _).complete plan.source hplan.source).bind ?_
    rintro _ rfl
    refine ((codes_parseTensorDesc _).complete plan.indices hplan.indices).bind ?_
    rintro _ rfl
    refine ((codes_parseTensorDesc _).complete plan.result hplan.result).bind ?_
    rintro _ rfl
    refine (codes_readU32.complete plan.axis hplan.axis).bind ?_
    rintro _ rfl
    refine (codes_readU8.complete plan.policy trivial).bind_pure ?_
    rintro _ rfl
    rfl

/-! ### The static contract -/

/-- A dense descriptor of positive rank at offset zero. -/
def TensorDesc.dense (desc : TensorDesc) : Prop :=
  desc.extents ≠ [] ∧ desc.strides = [] ∧ constantOf desc.offset = some 0

/-- Two extents that are not known to differ. -/
def extentsCompatible (lhs rhs : ExprStream) : Prop :=
  ∀ left ∈ constantOf lhs, ∀ right ∈ constantOf rhs, left = right

/-- The pairs of types a row selection may have, each with its policy byte. -/
def IndexedRelocationPlan.supported (plan : IndexedRelocationPlan) : Prop :=
  let source := plan.source.elementType
  let result := plan.result.elementType
  (source = result ∧ (isFloatWidth source 32 ∨ isFloatWidth source 16 ∨ isInt8 source) ∧
      plan.policy = NumericPolicyKind.bytes.toByte .exact) ∨
    (isFloatWidth source 32 ∧ isFloatWidth result 16 ∧
      plan.policy = NumericPolicyKind.bytes.toByte .ieeeRne) ∨
    (isFloatWidth source 16 ∧ isFloatWidth result 32 ∧
      plan.policy = NumericPolicyKind.bytes.toByte .exact)

instance (desc : TensorDesc) : Decidable desc.dense := inferInstanceAs (Decidable (_ ∧ _))
instance (lhs rhs : ExprStream) : Decidable (extentsCompatible lhs rhs) := by
  unfold extentsCompatible; infer_instance
instance (plan : IndexedRelocationPlan) : Decidable plan.supported := by
  unfold IndexedRelocationPlan.supported; infer_instance

/-- The extent the result must have: the index count in front, then the source's. -/
def selectedExtent (plan : IndexedRelocationPlan) (index : Nat) : Outcome String ExprStream :=
  if index = 0 then fetch plan.indices.extents 0 else fetch plan.source.extents index

/-- `validateIndexedPlan`; the error is the message. -/
def validateIndexedPlan (plan : IndexedRelocationPlan) : Outcome String Unit := do
  forEach [plan.source, plan.indices, plan.result] fun desc => do
    require desc.dense "indexed plan requires dense zero-offset positive-rank descriptors"
    forEach desc.extents fun extent =>
      require (∀ value ∈ constantOf extent, 0 < value) "indexed plan extents must be positive"
  require (plan.axis = 0 ∧ plan.indices.extents.length = 1 ∧
      plan.indices.elementType.kind = .integer ∧
      (plan.indices.elementType.bitwidth = 32 ∨ plan.indices.elementType.bitwidth = 64))
    "indexed plan requires axis 0 and rank-one i32/i64 indices"
  require (plan.source.extents.length = plan.result.extents.length)
    "indexed plan source/result rank mismatch"
  forEach (List.range plan.result.extents.length) fun index => do
    let found ← fetch plan.result.extents index
    let expected ← selectedExtent plan index
    require (extentsCompatible found expected) "indexed plan result extent mismatch"
  require plan.supported "indexed plan has an unsupported type/policy pair"

/-- `decodeIndexedPlan`; the contract's message is reported at the end. -/
def decodeIndexedPlan (data : List UInt8) : Outcome DecodeError IndexedRelocationPlan :=
  decodeAll indexedPlanReader "trailing bytes after indexed plan"
    (fun position plan => do
      (validateIndexedPlan plan).mapError fun message => ⟨position, message⟩
      pure plan) data

/-- A row-selection plan that passes the static contract. -/
structure IndexedRelocationPlan.Valid (plan : IndexedRelocationPlan) : Prop where
  dense : ∀ desc ∈ [plan.source, plan.indices, plan.result], desc.dense ∧
    ∀ extent ∈ desc.extents, ∀ value ∈ constantOf extent, 0 < value
  index : plan.axis = 0 ∧ plan.indices.extents.length = 1 ∧
    plan.indices.elementType.kind = .integer ∧
    (plan.indices.elementType.bitwidth = 32 ∨ plan.indices.elementType.bitwidth = 64)
  rank : plan.source.extents.length = plan.result.extents.length
  extents : ∀ index found expected, plan.result.extents[index]? = some found →
    selectedExtent plan index = .ok expected → extentsCompatible found expected
  supported : plan.supported

theorem selectedExtent_isOk {plan : IndexedRelocationPlan} {index : Nat}
    (hindices : plan.indices.extents.length = 1) (hlt : index < plan.source.extents.length) :
    ∃ extent, selectedExtent plan index = .ok extent := by
  unfold selectedExtent
  by_cases hzero : index = 0
  · rw [if_pos hzero, fetch_of_lt (by omega)]
    exact ⟨_, rfl⟩
  · rw [if_neg hzero, fetch_of_lt hlt]
    exact ⟨_, rfl⟩

theorem validateIndexedPlan_eq_ok {plan : IndexedRelocationPlan} :
    validateIndexedPlan plan = .ok () ↔ plan.Valid := by
  simp only [validateIndexedPlan, bind_ok_iff, exists_unit, forEach_eq_ok, require_eq_ok,
    fetch_eq_ok]
  constructor
  · rintro ⟨hdense, hindex, hrank, hextents, hsupported⟩
    refine ⟨hdense, hindex, hrank, ?_, hsupported⟩
    intro index found expected hfound hexpected
    have hlt : index < plan.result.extents.length := (List.getElem?_eq_some_iff.mp hfound).1
    obtain ⟨found', hfound', expected', hexpected', hsame⟩ :=
      hextents index (List.mem_range.mpr hlt)
    cases hfound.symm.trans hfound'
    cases hexpected.symm.trans hexpected'
    exact hsame
  · intro h
    refine ⟨h.dense, h.index, h.rank, fun index hmem => ?_, h.supported⟩
    have hlt := List.mem_range.mp hmem
    obtain ⟨expected, hexpected⟩ := selectedExtent_isOk h.index.2.1 (h.rank.symm ▸ hlt)
    have hfound := List.getElem?_eq_getElem hlt
    exact ⟨_, hfound, expected, hexpected, h.extents index _ expected hfound hexpected⟩

/-- The contract never looks outside the descriptors. -/
theorem safe_validateIndexedPlan (plan : IndexedRelocationPlan) :
    (validateIndexedPlan plan).Safe := by
  unfold validateIndexedPlan
  refine safe_bind (safe_forEach fun _ _ => safe_bind (safe_require _ _) fun _ =>
    safe_forEach fun _ _ => safe_require _ _) fun _ => ?_
  refine sat_require_bind.mpr fun hindex => sat_require_bind.mpr fun hrank => ?_
  refine safe_bind (safe_forEach fun index hmem => ?_) fun _ => safe_require _ _
  have hlt := List.mem_range.mp hmem
  obtain ⟨expected, hexpected⟩ := selectedExtent_isOk hindex.2.1 (hrank.symm ▸ hlt)
  rw [fetch_of_lt hlt, ok_bind, hexpected, ok_bind]
  exact safe_require _ _

/-! ### Decoding -/

/-- What the decoder guarantees of a row-selection plan. -/
structure IndexedRelocationPlan.WellFormed (plan : IndexedRelocationPlan) : Prop where
  sections : plan.SectionsWellFormed
  valid : plan.Valid

/-- A buffer decodes to a row-selection plan exactly when the plan is well formed
    and the buffer is its encoding. -/
theorem decodeIndexedPlan_eq_ok {data : List UInt8} {plan : IndexedRelocationPlan} :
    decodeIndexedPlan data = .ok plan ↔ plan.WellFormed ∧ data = writeIndexedPlan plan := by
  rw [decodeIndexedPlan, decodeAll_eq_ok codes_indexedPlanReader.via]
  simp only [bind_ok_iff, exists_unit, mapError_eq_ok, validateIndexedPlan_eq_ok, pure_eq]
  constructor
  · rintro ⟨found, -, hsections, hdata, hvalid, ⟨⟩⟩
    exact ⟨⟨hsections, hvalid⟩, hdata⟩
  · rintro ⟨⟨hsections, hvalid⟩, rfl⟩
    obtain ⟨found, hread, rfl⟩ := reads_write codes_indexedPlanReader.via hsections
    exact ⟨found, hread, hsections, rfl, hvalid, rfl⟩

theorem safe_decodeIndexedPlan (data : List UInt8) : (decodeIndexedPlan data).Safe :=
  safe_decodeAll codes_indexedPlanReader.via (fun _ plan _ =>
    safe_bind (safe_mapError.mpr (safe_validateIndexedPlan plan)) fun _ => safe_ok plan) data

end SymReloc
