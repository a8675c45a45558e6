import SymReloc.Wire.EncodeLayout

/-!
# The v0 round trip

The compiler writes plans and the runtime reads them, each with its own code.
`PlanMirrors` says what it means for a decoded plan to be the plan that was
encoded: field by field, every expression being the postfix stream of the tree
and evaluating to the value of the tree.

The two sides disagree in one place.  The encoder writes the type `i0`, which no
verifier excludes, and the decoder accepts integer widths from 1 to 64 only.
-/

namespace SymReloc

open ByteReader

/-! ### Mirrors -/

/-- A stream is the postfix form of an expression over a table, and evaluates to
    its value whatever the operators mean. -/
structure SymMirrors (table : List Name) (expr : SymExpr) (stream : ExprStream) : Prop where
  stream_eq : stream = (expr.toTree table).stream
  evaluates : ∀ (sem : StackOp → Int → Int → Option Int) (dim : Nat → Option Int) (σ : Name → Int),
    stream.evalWith sem (fun index => table[index]?.map σ) dim =
      expr.evalWith (fun op => sem op.stackOp) σ

/-- The same for an affine expression over dimensions only. -/
structure AffineMirrors (expr : AffineExpr) (stream : ExprStream) : Prop where
  stream_eq : ∃ tree, expr.toTree? [] [] = some tree ∧ stream = tree.stream
  evaluates : ∀ (sem : StackOp → Int → Int → Option Int) (dims : Nat → Int)
    (sym : Nat → Option Int) (affineSym : Nat → Int),
    stream.evalWith sem sym (fun index => some (dims index)) =
      expr.evalWith (AffineExpr.semOf sem) dims affineSym

structure DescMirrors (table : List Name) (desc : TensorDescAttr) (wire : TensorDesc) : Prop where
  extents : List.Forall₂ (SymMirrors table) desc.extents wire.extents
  strides : List.Forall₂ (SymMirrors table) desc.strides wire.strides
  offset : SymMirrors table desc.offset wire.offset
  elementType : wireElementType? desc.elementType = some wire.elementType

structure AxisMirrors (table : List Name) (axis : AxisInfoAttr) (wire : Axis) : Prop where
  name : wire.name = axis.name
  extent : SymMirrors table axis.extent wire.extent
  srcStride : SymMirrors table axis.srcStride wire.srcStride
  dstStride : SymMirrors table axis.dstStride wire.dstStride

structure PadMirrors (table : List Name) (pad : PadFillAttr) (wire : PadFill) : Prop where
  dstAxis : wire.dstAxis = pad.dstAxis
  lo : SymMirrors table pad.lo wire.lo
  hi : SymMirrors table pad.hi wire.hi
  fillType : wireElementType? pad.value.type = some wire.fillType
  fillBits : pad.value.rawBits? = some wire.fillBits

structure DivisibilityMirrors (table : List Name) (entry : DivisibilityAttr)
    (wire : Divisibility) : Prop where
  expr : SymMirrors table entry.expr wire.expr
  divisor : wire.divisor = entry.divisor

/-- A decoded plan is the plan that was encoded, over its first-use table. -/
structure PlanMirrors (plan : PlanAttr) (wire : RelocationPlan) : Prop where
  symbols : wire.symbols = plan.symbolTable
  src : DescMirrors wire.symbols plan.src wire.src
  dst : DescMirrors wire.symbols plan.dst wire.dst
  perm : wire.perm.map Int.ofNat = plan.perm
  axes : List.Forall₂ (AxisMirrors wire.symbols) plan.axes wire.axes
  padFill : List.Forall₂ (PadMirrors wire.symbols) plan.padFill wire.padFill
  divisibility : List.Forall₂ (DivisibilityMirrors wire.symbols) plan.divisibility wire.divisibility
  alignment : wire.alignment.map (fun entry => (entry.axis, entry.bytes)) =
    plan.alignment.map fun entry => (entry.axis, entry.bytes)
  contiguity : wire.contiguity = plan.contiguity
  noCopy : wire.noCopy = plan.noCopy
  runtimePadCheck : wire.runtimePadCheck = plan.runtimePadCheck
  inverse : List.Forall₂ AffineMirrors plan.inverse.results wire.inverse

/-! ### Machine ranges -/

/-- The 64-bit fields of a plan hold 64-bit values. -/
structure PlanAttr.Int64Fields (plan : PlanAttr) : Prop where
  exprs : ∀ expr ∈ plan.exprs, expr.ConstantsFit
  divisors : ∀ entry ∈ plan.divisibility, FitsI64 entry.divisor
  alignments : ∀ entry ∈ plan.alignment, FitsI64 entry.bytes
  inverse : ∀ result ∈ plan.inverse.results, result.ConstantsFit

/-- All counts and string lengths of a plan are below 2³². -/
structure PlanAttr.CountsFit (plan : PlanAttr) : Prop where
  symbols : plan.symbolTable.length < 2 ^ 32
  names : ∀ name ∈ plan.symbolTable, name.length < 2 ^ 32
  srcRank : plan.src.extents.length < 2 ^ 32
  axes : plan.axes.length < 2 ^ 32
  axisNames : ∀ axis ∈ plan.axes, axis.name.length < 2 ^ 32
  padFill : plan.padFill.length < 2 ^ 32
  divisibility : plan.divisibility.length < 2 ^ 32
  alignment : plan.alignment.length < 2 ^ 32
  exprs : ∀ expr ∈ plan.exprs, expr.opCount < 2 ^ 32
  inverse : ∀ result ∈ plan.inverse.results, result.opCount < 2 ^ 32

/-! ### Types on the wire -/

/-- A representable type is a valid wire type, except for `i0`. -/
theorem wireElementType_valid {type : MlirType} {wire : ElementType}
    (h : wireElementType? type = some wire) : wire.Valid ↔ type ≠ .signless 0 := by
  unfold wireElementType? at h
  split at h
  · cases h
    simp [ElementType.Valid]
  · cases h
    simp [ElementType.Valid]
  · cases h
    simp [ElementType.Valid]
  · cases h
    simp [ElementType.Valid]
  · rename_i width
    split at h
    · cases h
    · cases h
      simp only [ElementType.Valid, ne_eq, MlirType.integer.injEq, true_and]
      omega
  · cases h
    simp [ElementType.Valid]
  · cases h

theorem wireElementType_eq {type : MlirType} (h : (wireElementType? type).isSome) :
    wireElementType? type = some (wireElementType type) := by
  obtain ⟨wire, hwire⟩ := Option.isSome_iff_exists.mp h
  rw [wireElementType, hwire]
  rfl

/-- A representable constant has at most 64 bits. -/
theorem TypedAttr.Representable.rawBits_lt {value : TypedAttr} (h : value.Representable) :
    value.rawBits < 2 ^ 64 := by
  obtain ⟨htype, hbits⟩ := h
  cases value with
  | float kind bits =>
      have hlt : bits.toNat < 2 ^ kind.width := bits.isLt
      have hwidth : kind.width ≤ 64 := by
        cases kind with
        | other mnemonic width => simp [TypedAttr.type, wireElementType?] at htype
        | _ => decide
      exact hlt.trans_le (Nat.pow_le_pow_right (by decide) hwidth)
  | integer signedness width bits =>
      have hlt : bits.toNat < 2 ^ width := bits.isLt
      have hwidth : width ≤ 64 := by
        by_contra hwide
        cases signedness <;>
          simp [TypedAttr.type, wireElementType?, Nat.lt_of_not_le hwide] at htype
      exact hlt.trans_le (Nat.pow_le_pow_right (by decide) hwidth)
  | index bits => exact bits.isLt
  | other type mnemonic => cases hbits

theorem TypedAttr.Representable.rawBits_eq {value : TypedAttr} (h : value.Representable) :
    value.rawBits? = some value.rawBits := by
  obtain ⟨raw, hraw⟩ := Option.isSome_iff_exists.mp h.2
  rw [TypedAttr.rawBits, hraw]
  rfl

/-! ### The wire plan is well formed -/

section
variable {table : List Name}

theorem symMirrors_stream {expr : SymExpr} (hnames : ∀ name ∈ expr.symbolNames, name ∈ table) :
    SymMirrors table expr (expr.toTree table).stream where
  stream_eq := rfl
  evaluates sem dim σ := by
    rw [ExprTree.evalWith_stream]
    exact SymExpr.evalWith_toTree sem dim σ hnames

theorem forall₂_map_self {α β : Type} {R : α → β → Prop} {f : α → β} {values : List α}
    (h : ∀ value ∈ values, R value (f value)) : List.Forall₂ R values (values.map f) := by
  rw [List.forall₂_map_right_iff]
  exact List.forall₂_same.mpr h

end

theorem forall₂_exists_right {α β : Type} {R : α → β → Prop} {left : List α} {right : List β}
    (h : List.Forall₂ R left right) {a : α} (ha : a ∈ left) : ∃ b ∈ right, R a b := by
  induction h with
  | nil => cases ha
  | cons hab _ ih =>
      rcases List.mem_cons.mp ha with rfl | ha
      · exact ⟨_, List.mem_cons_self, hab⟩
      · obtain ⟨b, hb, hR⟩ := ih ha
        exact ⟨b, List.mem_cons_of_mem _ hb, hR⟩

section
variable {plan : PlanAttr}

theorem axis_exprs_subset {axis : AxisInfoAttr} (h : axis ∈ plan.axes) :
    axis.exprs ⊆ plan.exprs := fun expr hexpr => by
  simp only [PlanAttr.exprs, List.mem_append, List.mem_flatMap]
  exact Or.inr (Or.inr (Or.inl ⟨axis, h, hexpr⟩))

theorem pad_exprs_subset {pad : PadFillAttr} (h : pad ∈ plan.padFill) :
    pad.exprs ⊆ plan.exprs := fun expr hexpr => by
  simp only [PlanAttr.exprs, List.mem_append, List.mem_flatMap]
  exact Or.inr (Or.inr (Or.inr (Or.inl ⟨pad, h, hexpr⟩)))

theorem divisibility_expr_mem {entry : DivisibilityAttr} (h : entry ∈ plan.divisibility) :
    entry.expr ∈ plan.exprs := by
  simp only [PlanAttr.exprs, List.mem_append, List.mem_map]
  exact Or.inr (Or.inr (Or.inr (Or.inr ⟨entry, h, rfl⟩)))

end

/-- What the round trip needs to know of one expression. -/
structure SymExpr.WireReady (table : List Name) (expr : SymExpr) : Prop where
  names : ∀ name ∈ expr.symbolNames, name ∈ table
  constants : expr.ConstantsFit
  count : expr.opCount < 2 ^ 32

theorem SymExpr.WireReady.wellFormed {table : List Name} {expr : SymExpr}
    (htable : table.length < 2 ^ 32) (h : expr.WireReady table) :
    (expr.toTree table).stream.WellFormed (.plan table.length) :=
  ExprTree.wellFormed_stream (SymExpr.inScope_toTree htable h.names h.constants)
    (by rw [SymExpr.length_stream]; exact h.count)

theorem PlanAttr.wireReady {plan : PlanAttr} (hfields : plan.Int64Fields)
    (hcounts : plan.CountsFit) :
    ∀ expr ∈ plan.exprs, expr.WireReady plan.symbolTable := fun expr hexpr =>
  ⟨fun _ hname => mem_intern.mpr (Or.inr (List.mem_flatMap.mpr ⟨expr, hexpr, hname⟩)),
    hfields.exprs expr hexpr, hcounts.exprs expr hexpr⟩

theorem TensorDescAttr.toWire_wellFormed {table : List Name} {desc : TensorDescAttr}
    (htable : table.length < 2 ^ 32) (hrank : desc.extents.length < 2 ^ 32)
    (hready : ∀ expr ∈ desc.exprs, expr.WireReady table)
    (htype : (wireElementType desc.elementType).Valid) :
    (desc.toWire table).WellFormed table.length := by
  have hwf : ∀ expr ∈ desc.exprs, (expr.toTree table).stream.WellFormed (.plan table.length) :=
    fun expr hexpr => (hready expr hexpr).wellFormed htable
  have hstreams : ∀ exprs : List SymExpr, exprs ⊆ desc.exprs → exprs.length < 2 ^ 32 →
      StreamsWellFormed (.plan table.length) (streams table exprs) := by
    intro exprs hsub hlt
    refine ⟨by rwa [streams, List.length_map], ?_⟩
    simp only [streams, List.forall_mem_map]
    exact fun expr hexpr => hwf expr (hsub hexpr)
  have hstrides : desc.strides.length = 0 ∨ desc.strides.length = desc.extents.length := by
    rcases desc.strides_size with h | h
    · exact Or.inl (by rw [h]; rfl)
    · exact Or.inr h
  exact
    { extents := hstreams _ (List.subset_append_left _ _) hrank
      strides := hstreams _ (fun expr h =>
        List.mem_append_right _ (List.mem_append_left _ h)) (by omega)
      stride_count := by simpa [TensorDescAttr.toWire, streams] using hstrides
      offset := hwf _ (by simp [TensorDescAttr.exprs])
      elementType := htype }

theorem AffineExpr.wellFormed_affineStream {table : List Name} {expr : AffineExpr}
    {numDims numSymbols : Nat} (htable : table.length < 2 ^ 32) (hdims : numDims < 2 ^ 32)
    (hencodable : expr.Encodable []) (hrange : expr.InRange numDims numSymbols)
    (hconstants : expr.ConstantsFit) (hcount : expr.opCount < 2 ^ 32) :
    (affineStream table [] expr).WellFormed ⟨.inverse, table.length, numDims⟩ := by
  obtain ⟨tree, htree⟩ := (AffineExpr.encodable_iff table [] expr).mp hencodable
  have hscope : tree.InScope ⟨.inverse, table.length, numDims⟩ :=
    AffineExpr.inScope_toTree? htable hdims (by decide) (fun _ => rfl) htree hrange
      (by rw [affine_symbolNames_nil]; exact fun _ h => by cases h) hconstants
  rw [affineStream, htree]
  exact ExprTree.wellFormed_stream hscope (by rw [AffineExpr.length_stream htree]; exact hcount)

/-- The wire plan of a verified plan within machine ranges is well formed, unless
    it names `i0`. -/
theorem PlanAttr.toWire_wellFormed {w : Int → Int} {plan : PlanAttr} (hverified : plan.Verified w)
    (haxes : plan.axes ≠ []) (hfields : plan.Int64Fields) (hcounts : plan.CountsFit)
    (hencodable : plan.Encodable) (htypes : ∀ type ∈ plan.types, type ≠ .signless 0) :
    plan.toWire.WellFormed := by
  have hready := plan.wireReady hfields hcounts
  have htable := hcounts.symbols
  have hwf : ∀ expr ∈ plan.exprs,
      (expr.toTree plan.symbolTable).stream.WellFormed (.plan plan.symbolTable.length) :=
    fun expr hexpr => (hready expr hexpr).wellFormed htable
  have hvalid : ∀ type ∈ plan.types, (wireElementType? type).isSome →
      (wireElementType type).Valid :=
    fun type htype hsome => (wireElementType_valid (wireElementType_eq hsome)).mpr
      (htypes type htype)
  have hdims : plan.inverse.numDims < 2 ^ 32 := hverified.inverse_dims ▸ hcounts.axes
  have hperm : IsPermutation plan.axes.length (plan.perm.map Int.toNat) := by
    refine ⟨by rw [List.length_map, hverified.perm_size], ?_, ?_⟩
    · refine List.Nodup.map_on (fun a ha b hb heq => ?_) hverified.perm_nodup
      have hna := (hverified.perm_range a ha).1
      have hnb := (hverified.perm_range b hb).1
      omega
    · simp only [List.forall_mem_map]
      intro value hvalue
      have hrange := hverified.perm_range value hvalue
      omega
  refine ⟨⟨htable, hcounts.names⟩, ?_⟩
  exact
    { shape :=
        { src_wf := TensorDescAttr.toWire_wellFormed htable hcounts.srcRank
            (fun expr h => hready expr (List.mem_append_left _ h))
            (hvalid _ (by simp [PlanAttr.types]) hencodable.src)
          dst_wf := TensorDescAttr.toWire_wellFormed htable
            (by rw [hverified.dst_rank]; exact hcounts.axes)
            (fun expr h => hready expr (List.mem_append_right _ (List.mem_append_left _ h)))
            (hvalid _ (by simp [PlanAttr.types]) hencodable.dst)
          axes_pos := by
            simp only [PlanAttr.toWire, PlanAttr.toWireOver, List.length_map]
            exact List.length_pos_iff.mpr haxes
          axes_lt := by simpa [PlanAttr.toWire, PlanAttr.toWireOver] using hcounts.axes
          axes_wf := by
            simp only [PlanAttr.toWire, PlanAttr.toWireOver, List.forall_mem_map]
            intro axis h
            exact ⟨hcounts.axisNames axis h,
              hwf _ (axis_exprs_subset h (by simp [AxisInfoAttr.exprs])),
              hwf _ (axis_exprs_subset h (by simp [AxisInfoAttr.exprs])),
              hwf _ (axis_exprs_subset h (by simp [AxisInfoAttr.exprs]))⟩
          perm_wf := by
            simpa only [PlanAttr.toWire, PlanAttr.toWireOver, List.length_map] using hperm
          dst_rank := by
            simpa [PlanAttr.toWire, PlanAttr.toWireOver, TensorDescAttr.toWire, streams] using
              hverified.dst_rank }
      padFill_lt := by simpa [PlanAttr.toWire, PlanAttr.toWireOver] using hcounts.padFill
      padFill := by
        simp only [PlanAttr.toWire, PlanAttr.toWireOver, List.forall_mem_map, List.length_map]
        intro pad h
        have hlt := checkPad_axis_lt (hverified.pads pad h)
        have hvalue := hencodable.padFill pad h
        have htype : pad.value.type ∈ plan.types := by
          simp only [PlanAttr.types, List.mem_append, List.mem_map]
          exact Or.inr ⟨pad, h, rfl⟩
        exact ⟨hlt, hlt.trans hcounts.axes,
          hwf _ (pad_exprs_subset h (by simp [PadFillAttr.exprs])),
          hwf _ (pad_exprs_subset h (by simp [PadFillAttr.exprs])),
          hvalid _ htype hvalue.1, hvalue.rawBits_lt⟩
      divisibility_lt := by simpa [PlanAttr.toWire, PlanAttr.toWireOver] using hcounts.divisibility
      divisibility := by
        simp only [PlanAttr.toWire, PlanAttr.toWireOver, List.forall_mem_map]
        exact fun entry h => ⟨hwf _ (divisibility_expr_mem h), hfields.divisors entry h⟩
      alignment_lt := by simpa [PlanAttr.toWire, PlanAttr.toWireOver] using hcounts.alignment
      alignment := by
        simp only [PlanAttr.toWire, PlanAttr.toWireOver, List.forall_mem_map, List.length_map]
        exact fun entry h => ⟨hverified.alignment_lt entry h,
          (hverified.alignment_lt entry h).trans hcounts.axes, hfields.alignments entry h⟩
      contiguity_count := by
        simp only [PlanAttr.toWire, PlanAttr.toWireOver, List.length_map]
        rcases hverified.contiguity_size with h | h
        · exact Or.inl (by rw [h]; rfl)
        · exact Or.inr h
      inverse_count := by
        simpa [PlanAttr.toWire, PlanAttr.toWireOver] using hverified.inverse_results
      inverse := by
        simp only [PlanAttr.toWire, PlanAttr.toWireOver, List.forall_mem_map, List.length_map]
        intro result h
        rw [← hverified.inverse_dims]
        exact AffineExpr.wellFormed_affineStream htable hdims (hencodable.inverse result h)
          (plan.inverse.inRange result h) (hfields.inverse result h) (hcounts.inverse result h) }

/-! ### The wire plan mirrors the plan -/

theorem affineMirrors_stream {table : List Name} {expr : AffineExpr} (h : expr.Encodable []) :
    AffineMirrors expr (affineStream table [] expr) := by
  obtain ⟨tree, htree⟩ := (AffineExpr.encodable_iff table [] expr).mp h
  obtain ⟨tree', htree'⟩ := (AffineExpr.encodable_iff [] [] expr).mp h
  have hsame : ∀ {e : AffineExpr} {t t' : ExprTree}, e.toTree? table [] = some t →
      e.toTree? [] [] = some t' → t = t' := by
    intro e
    induction e with
    | constant value => rintro t t' ⟨⟩ ⟨⟩; rfl
    | dim position => rintro t t' ⟨⟩ ⟨⟩; rfl
    | symbol position => rintro t t' ⟨⟩
    | binary kind lhs rhs ihl ihr =>
        intro t t' ht ht'
        obtain ⟨op, l, r, hop, hl, hr, rfl⟩ := AffineExpr.toTree?_binary.mp ht
        obtain ⟨op', l', r', hop', hl', hr', rfl⟩ := AffineExpr.toTree?_binary.mp ht'
        cases hop.symm.trans hop'
        rw [ihl hl hl', ihr hr hr']
  obtain rfl := hsame htree htree'
  have hstream : affineStream table [] expr = tree.stream := by rw [affineStream, htree]; rfl
  refine ⟨⟨tree, htree', hstream⟩, fun sem dims sym affineSym => ?_⟩
  rw [hstream, ExprTree.evalWith_stream]
  clear hstream htree' hsame
  induction expr generalizing tree with
  | constant value => cases htree; rfl
  | dim position => cases htree; rfl
  | symbol position => cases htree
  | binary kind lhs rhs ihl ihr =>
      obtain ⟨op, l, r, hop, hl, hr, rfl⟩ := AffineExpr.toTree?_binary.mp htree
      simp only [ExprTree.evalWith, AffineExpr.evalWith, ihl h.2.1 l hl, ihr h.2.2 r hr,
        AffineExpr.semOf, hop, Option.bind_some]

theorem TensorDescAttr.mirrors_toWire {table : List Name} {desc : TensorDescAttr}
    (hnames : ∀ expr ∈ desc.exprs, ∀ name ∈ expr.symbolNames, name ∈ table)
    (htype : (wireElementType? desc.elementType).isSome) :
    DescMirrors table desc (desc.toWire table) where
  extents := forall₂_map_self fun expr hexpr =>
    symMirrors_stream (hnames expr (List.mem_append_left _ hexpr))
  strides := forall₂_map_self fun expr hexpr =>
    symMirrors_stream (hnames expr (List.mem_append_right _ (List.mem_append_left _ hexpr)))
  offset := symMirrors_stream (hnames desc.offset (by simp [TensorDescAttr.exprs]))
  elementType := wireElementType_eq htype

theorem PlanAttr.mirrors_toWire {w : Int → Int} {plan : PlanAttr} (hverified : plan.Verified w)
    (hencodable : plan.Encodable) : PlanMirrors plan plan.toWire := by
  have hnames : ∀ expr ∈ plan.exprs, ∀ name ∈ expr.symbolNames, name ∈ plan.symbolTable :=
    fun expr hexpr name hname =>
      mem_intern.mpr (Or.inr (List.mem_flatMap.mpr ⟨expr, hexpr, hname⟩))
  have hmirror : ∀ expr ∈ plan.exprs,
      SymMirrors plan.symbolTable expr (expr.toTree plan.symbolTable).stream :=
    fun expr hexpr => symMirrors_stream (hnames expr hexpr)
  exact
    { symbols := rfl
      src := TensorDescAttr.mirrors_toWire
        (fun expr h => hnames expr (List.mem_append_left _ h)) hencodable.src
      dst := TensorDescAttr.mirrors_toWire
        (fun expr h => hnames expr (List.mem_append_right _ (List.mem_append_left _ h)))
        hencodable.dst
      perm := by
        simp only [PlanAttr.toWire, PlanAttr.toWireOver, List.map_map]
        refine (List.map_congr_left fun value hvalue => ?_).trans (List.map_id plan.perm)
        exact Int.toNat_of_nonneg (hverified.perm_range value hvalue).1
      axes := forall₂_map_self fun axis h => by
        exact ⟨rfl, hmirror _ (axis_exprs_subset h (by simp [AxisInfoAttr.exprs])),
          hmirror _ (axis_exprs_subset h (by simp [AxisInfoAttr.exprs])),
          hmirror _ (axis_exprs_subset h (by simp [AxisInfoAttr.exprs]))⟩
      padFill := forall₂_map_self fun pad h => by
        exact ⟨rfl, hmirror _ (pad_exprs_subset h (by simp [PadFillAttr.exprs])),
          hmirror _ (pad_exprs_subset h (by simp [PadFillAttr.exprs])),
          wireElementType_eq (hencodable.padFill pad h).1, (hencodable.padFill pad h).rawBits_eq⟩
      divisibility := forall₂_map_self fun entry h =>
        ⟨hmirror _ (divisibility_expr_mem h), rfl⟩
      alignment := by
        simp only [PlanAttr.toWire, PlanAttr.toWireOver, List.map_map]
        rfl
      contiguity := rfl
      noCopy := rfl
      runtimePadCheck := rfl
      inverse := forall₂_map_self fun result h =>
        affineMirrors_stream (hencodable.inverse result h) }

/-! ### The round trip -/

/-- Decoding what the encoder produced for a verified plan gives that plan back
    exactly when the plan does not name the integer type of width zero. -/
theorem decodePlan_encodePlan_iff {plan : PlanAttr} {bytes : List UInt8} {names : List Name}
    (hverify : plan.verify wrap64 = .ok ()) (haxes : plan.axes ≠ []) (hfields : plan.Int64Fields)
    (hcounts : plan.CountsFit) (hencode : encodePlan plan = .ok (bytes, names)) :
    (∃ wire, decodePlan bytes = .ok wire ∧ PlanMirrors plan wire) ↔
      ∀ type ∈ plan.types, type ≠ .signless 0 := by
  have hverified := PlanAttr.verify_eq_ok.mp hverify
  have hperm : ∀ value ∈ plan.perm, 0 ≤ value ∧ value < 2 ^ 32 := fun value hvalue => by
    have hrange := hverified.perm_range value hvalue
    have hlt := hcounts.axes
    omega
  obtain ⟨rfl, -, hencodable⟩ := encodePlan_eq_ok hperm
    (hverified.inverse_dims.trans hverified.inverse_results.symm) hencode
  constructor
  · rintro ⟨wire, hdecode, hmirrors⟩ type htype
    have hwf := (decodePlan_eq_ok.mp hdecode).1.layout
    simp only [PlanAttr.types, List.cons_append, List.nil_append, List.mem_cons,
      List.mem_map] at htype
    rcases htype with rfl | rfl | ⟨pad, hpad, rfl⟩
    · exact (wireElementType_valid hmirrors.src.elementType).mp hwf.shape.src_wf.elementType
    · exact (wireElementType_valid hmirrors.dst.elementType).mp hwf.shape.dst_wf.elementType
    · obtain ⟨wirePad, hwirePad, hmirror⟩ := forall₂_exists_right hmirrors.padFill hpad
      exact (wireElementType_valid hmirror.fillType).mp (hwf.padFill wirePad hwirePad).fillType
  · intro htypes
    exact ⟨plan.toWire, decodePlan_eq_ok.mpr
      ⟨PlanAttr.toWire_wellFormed hverified haxes hfields hcounts hencodable htypes, rfl⟩,
      PlanAttr.mirrors_toWire hverified hencodable⟩

/-- A vector of `n` elements of a type, copied and padded by one cell in front and
    two behind. -/
def paddedVector (type : MlirType) (htype : type.IsTensorElement) (fill : TypedAttr) :
    PlanAttr where
  src := ⟨[.symbol [110]], [], .constant 0, type, Or.inl rfl, htype⟩
  dst := ⟨[.binary .add (.symbol [110]) (.constant 3)], [], .constant 0, type, Or.inl rfl, htype⟩
  perm := [0]
  axes := [⟨[120], .symbol [110], .constant 1, .constant 1⟩]
  padFill := [⟨0, .constant 1, .constant 2, fill⟩]
  divisibility := []
  alignment := []
  contiguity := [true]
  noCopy := false
  runtimePadCheck := false
  inverse := ⟨1, 0, [.binary .add (.dim 0) (.constant (-1))], by decide⟩

theorem paddedVector_int64Fields (type : MlirType) (htype : type.IsTensorElement)
    (fill : TypedAttr) : (paddedVector type htype fill).Int64Fields where
  exprs := by
    simp [paddedVector, PlanAttr.exprs, TensorDescAttr.exprs, AxisInfoAttr.exprs, PadFillAttr.exprs,
      SymExpr.ConstantsFit, FitsI64]
  divisors := by simp [paddedVector]
  alignments := by simp [paddedVector]
  inverse := by simp [paddedVector, AffineExpr.ConstantsFit, FitsI64]

theorem paddedVector_symbolTable (type : MlirType) (htype : type.IsTensorElement)
    (fill : TypedAttr) : (paddedVector type htype fill).symbolTable = [[110]] := by
  rfl

theorem paddedVector_countsFit (type : MlirType) (htype : type.IsTensorElement)
    (fill : TypedAttr) : (paddedVector type htype fill).CountsFit where
  symbols := by simp [paddedVector_symbolTable]
  names := by simp [paddedVector_symbolTable]
  srcRank := by simp [paddedVector]
  axes := by simp [paddedVector]
  axisNames := by simp [paddedVector]
  padFill := by simp [paddedVector]
  divisibility := by simp [paddedVector]
  alignment := by simp [paddedVector]
  exprs := by
    simp [paddedVector, PlanAttr.exprs, TensorDescAttr.exprs, AxisInfoAttr.exprs, PadFillAttr.exprs,
      SymExpr.opCount]
  inverse := by simp [paddedVector, AffineExpr.opCount]

/-- The vector of 32-bit floats survives the round trip. -/
theorem decodePlan_encodePlan_f32 :
    ∃ bytes names, encodePlan (paddedVector .f32 trivial (.float .f32 0#32)) = .ok (bytes, names) ∧
      ∃ wire, decodePlan bytes = .ok wire ∧
        PlanMirrors (paddedVector .f32 trivial (.float .f32 0#32)) wire := by
  have hencode : encodePlan (paddedVector .f32 trivial (.float .f32 0#32)) =
      .ok (writePlan (paddedVector .f32 trivial (.float .f32 0#32)).toWire, [[110]]) := by
    decide +kernel
  exact ⟨_, _, hencode, (decodePlan_encodePlan_iff (by decide +kernel) (by decide)
    (paddedVector_int64Fields ..) (paddedVector_countsFit ..) hencode).mpr (by decide)⟩

/-- The vector of `i0` is verified and encoded, and refused by the decoder. -/
theorem decodePlan_encodePlan_i0 :
    (paddedVector (.signless 0) trivial (.integer .signless 0 0#0)).verify wrap64 = .ok () ∧
      (encodePlan (paddedVector (.signless 0) trivial (.integer .signless 0 0#0))).map
          (fun encoded => decodePlan encoded.1) =
        .ok (.error ⟨47, "invalid element type kind/bitwidth"⟩) := by
  decide +kernel

end SymReloc
