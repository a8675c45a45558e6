import SymReloc.Reloc.FoldSound

/-!
# The channels of folded value stages

A per-channel stage selects its parameters by the coordinate along one axis of the operand it
had in the chain.  Each later operation moves that coordinate, and folding rewrites the channel
expression with it: at every index of the destination the channel of a stage has the coordinate
that the element there had when it passed the stage (`foldChain_channels`).
-/

namespace SymReloc

open SymExpr RowMajor PaddedView

variable {α : Type} {σ : Name → Int} {folding : Folding α} {cells : Int}
  {plan plan' : PlanBuilder α} {view : List ViewAxis} {tensor tensor' : Tensor α} {op : ChainOp α}
  {ops : List (ChainOp α)} {input : SymbolicTensorType} {sizes : List Int}

/-! ### Substitution -/

section
variable {expr : AffineExpr} {replacements : List AffineExpr} {numDims numSymbols : Nat}
  {names names' : List Name} {index index' : List Int}

theorem AffineExpr.InRange.dims_lt (h : expr.InRange numDims numSymbols) :
    ∀ k ∈ expr.dims, k < numDims := by
  induction expr with
  | dim position =>
      intro k hk
      rw [List.mem_singleton.mp hk]
      exact h
  | symbol position => exact fun k hk => absurd hk List.not_mem_nil
  | constant value => exact fun k hk => absurd hk List.not_mem_nil
  | binary kind lhs rhs ihl ihr =>
      intro k hk
      rcases List.mem_append.mp hk with hleft | hright
      · exact ihl h.1 k hleft
      · exact ihr h.2 k hright

/-- Replaced dimensions whose values are the old coordinates keep the value. -/
theorem replaceDims_value (h : folding.Exact) {value : Int}
    (hrange : expr.InRange numDims names.length) (hnames : names <+: names')
    (hdims : ∀ k ∈ expr.dims, ∃ replacement i, replacements[k]? = some replacement ∧
      index[k]? = some i ∧ replacement.value σ names' index' = some i)
    (hvalue : expr.value σ names index = some value) :
    (expr.replaceDims folding.affine replacements).value σ names' index' = some value := by
  induction expr generalizing value with
  | dim position =>
      obtain ⟨replacement, i, hreplacement, hi, hsame⟩ := hdims position (List.mem_singleton_self _)
      have hfound : some (index.getD position 0) = some value := hvalue
      rw [List.getD_eq_getElem?_getD, hi] at hfound
      rw [AffineExpr.replaceDims, List.getD_eq_getElem?_getD, hreplacement]
      exact hsame.trans hfound
  | symbol position =>
      obtain ⟨rest, rfl⟩ := hnames
      have hlt : position < names.length := hrange
      have hfound : some (σ (names.getD position [])) = some value := hvalue
      have hsame : (names ++ rest)[position]? = names[position]? := List.getElem?_append_left hlt
      rw [List.getD_eq_getElem?_getD, ← hsame, ← List.getD_eq_getElem?_getD] at hfound
      exact hfound
  | constant c => exact hvalue
  | binary kind lhs rhs ihl ihr =>
      obtain ⟨l, r, hl, hr, happly⟩ := AffineExpr.value_binary.mp hvalue
      have hleft := ihl hrange.1 (fun k hk => hdims k (List.mem_append_left _ hk)) hl
      have hright := ihr hrange.2 (fun k hk => hdims k (List.mem_append_right _ hk)) hr
      unfold AffineExpr.replaceDims
      dsimp only
      split
      · rename_i hsame
        rw [hsame.1] at hleft
        rw [hsame.2] at hright
        exact AffineExpr.value_binary.mpr ⟨l, r, hleft, hright, happly⟩
      · exact h.value kind hleft hright happly

theorem replaceDims_inRange (h : folding.Exact) {numDims' numSymbols' : Nat}
    (hrange : expr.InRange numDims numSymbols) (hsymbols : numSymbols ≤ numSymbols')
    (hreplacements : ∀ k, k < numDims → ∃ replacement, replacements[k]? = some replacement ∧
      replacement.InRange numDims' numSymbols') :
    (expr.replaceDims folding.affine replacements).InRange numDims' numSymbols' := by
  induction expr with
  | dim position =>
      obtain ⟨replacement, hreplacement, hin⟩ := hreplacements position hrange
      rw [AffineExpr.replaceDims, List.getD_eq_getElem?_getD, hreplacement]
      exact hin
  | symbol position => exact Nat.lt_of_lt_of_le hrange hsymbols
  | constant c => trivial
  | binary kind lhs rhs ihl ihr =>
      have hleft := ihl hrange.1
      have hright := ihr hrange.2
      unfold AffineExpr.replaceDims
      dsimp only
      split
      · rename_i hsame
        rw [hsame.1] at hleft
        rw [hsame.2] at hright
        exact ⟨hleft, hright⟩
      · exact h.inRange kind _ _ _ _ hleft hright

end

/-! ### What the channels select -/

/-- A value stage and what an element has passed: the same operation, and the channel has the
    coordinate that the element had along the stage's axis. -/
structure StageFollows (σ : Name → Int) (names : List Name) (index : List Int)
    (stage : PlanValueStage α) (passed : ValueOp α × List Int) : Prop where
  op_eq : stage.op = passed.1
  channel : ∀ channel ∈ stage.channel, ∃ axis ∈ stage.op.axis, ∃ i,
    passed.2[axis.toNat]? = some i ∧ channel.value σ names index = some i

/-- The channels of a plan follow the elements of a tensor that come from the source. -/
structure ChannelsFollow (σ : Name → Int) (plan : PlanBuilder α) (tensor : Tensor α) : Prop where
  isSome_eq : ∀ stage ∈ plan.stages, stage.channel.isSome = stage.op.axis.isSome
  inRange : ∀ stage ∈ plan.stages, ∀ channel ∈ stage.channel,
    channel.InRange plan.axes.length plan.symbolNames.length
  follows : ∀ index, InBox tensor.shape index → ∀ offset passed,
    tensor.element index = ⟨.source offset, passed⟩ →
      List.Forall₂ (StageFollows σ plan.symbolNames index) plan.stages passed

/-- An operation moves the indices of a tensor: an element from the source was at an index whose
    coordinates are the values of the replacements. -/
structure MovesIndices (σ : Name → Int) (folding : Folding α) (plan plan' : PlanBuilder α)
    (tensor tensor' : Tensor α) (replacements : List AffineExpr) : Prop where
  stages : plan'.stages = if plan.tracksChannels
    then PlanBuilder.replaceChannelDims folding replacements plan.stages else plan.stages
  symbols : plan.tracksChannels = true → plan.symbolNames <+: plan'.symbolNames
  within : plan.tracksChannels = true → ∀ k, k < plan.axes.length → ∃ replacement,
    replacements[k]? = some replacement ∧
      replacement.InRange plan'.axes.length plan'.symbolNames.length
  index : ∀ index', InBox tensor'.shape index' → ∀ offset passed,
    tensor'.element index' = ⟨.source offset, passed⟩ → ∃ index, InBox tensor.shape index ∧
      tensor.element index = ⟨.source offset, passed⟩ ∧
      (plan.tracksChannels = true → ∀ k, plan.mentions k = true → ∃ replacement i,
        replacements[k]? = some replacement ∧ index[k]? = some i ∧
          replacement.value σ plan'.symbolNames index' = some i)

theorem PlanBuilder.mentions_of_mem {stage : PlanValueStage α} {channel : AffineExpr} {k : Nat}
    (hstage : stage ∈ plan.stages) (hchannel : channel ∈ stage.channel) (hk : k ∈ channel.dims) :
    plan.mentions k = true := by
  rw [mentions, List.any_eq_true]
  refine ⟨stage, hstage, ?_⟩
  rw [show stage.channel = some channel from hchannel]
  exact decide_eq_true hk

theorem PlanBuilder.channel_eq_none (h : plan.tracksChannels = false) {stage : PlanValueStage α}
    (hstage : stage ∈ plan.stages) : stage.channel = none := by
  rw [tracksChannels, List.any_eq_false] at h
  exact Option.not_isSome_iff_eq_none.mp (h stage hstage)

theorem ChannelsFollow.lt_of_mentions (h : ChannelsFollow σ plan tensor) {k : Nat}
    (hmentions : plan.mentions k = true) : k < plan.axes.length := by
  rw [PlanBuilder.mentions, List.any_eq_true] at hmentions
  obtain ⟨stage, hstage, hany⟩ := hmentions
  cases hchannel : stage.channel with
  | none =>
      rw [hchannel] at hany
      cases hany
  | some channel =>
      rw [hchannel] at hany
      exact (h.inRange stage hstage channel hchannel).dims_lt k (of_decide_eq_true hany)

/-- Without a channel there is nothing to follow. -/
theorem ChannelsFollow.untracked (h : ChannelsFollow σ plan tensor)
    (hnone : plan.tracksChannels = false) (hstages : plan'.stages = plan.stages)
    (hindex : ∀ index', InBox tensor'.shape index' → ∀ offset passed,
      tensor'.element index' = ⟨.source offset, passed⟩ → ∃ index, InBox tensor.shape index ∧
        tensor.element index = ⟨.source offset, passed⟩) : ChannelsFollow σ plan' tensor' := by
  have hchannel : ∀ stage ∈ plan.stages, stage.channel = none := fun stage =>
    PlanBuilder.channel_eq_none hnone
  refine ⟨hstages ▸ h.isSome_eq, ?_, ?_⟩
  · rw [hstages]
    intro stage hstage channel hsome
    rw [hchannel stage hstage] at hsome
    cases hsome
  · rw [hstages]
    intro index' hbox' offset passed helement
    obtain ⟨index, hbox, hold⟩ := hindex index' hbox' offset passed helement
    have hfollows := h.follows index hbox offset passed hold
    rw [List.forall₂_iff_get] at hfollows ⊢
    refine ⟨hfollows.1, fun k hk hk' => ⟨(hfollows.2 k hk hk').op_eq, ?_⟩⟩
    intro channel hsome
    rw [List.get_eq_getElem, hchannel _ (List.getElem_mem hk)] at hsome
    cases hsome

/-- Rewritten channels follow the elements that have moved. -/
theorem ChannelsFollow.moves {replacements : List AffineExpr} (h : ChannelsFollow σ plan tensor)
    (hexact : folding.Exact)
    (hmoves : MovesIndices σ folding plan plan' tensor tensor' replacements) :
    ChannelsFollow σ plan' tensor' := by
  cases htracked : plan.tracksChannels with
  | false =>
      have hstages := hmoves.stages
      rw [htracked] at hstages
      refine h.untracked htracked hstages fun index' hbox' offset passed helement => ?_
      obtain ⟨index, hbox, hold, -⟩ := hmoves.index index' hbox' offset passed helement
      exact ⟨index, hbox, hold⟩
  | true =>
      have hstages := hmoves.stages
      rw [htracked, if_pos rfl] at hstages
      have hsymbols := hmoves.symbols htracked
      constructor
      · rw [hstages]
        intro stage hstage
        obtain ⟨old, hold, rfl⟩ := List.mem_map.mp hstage
        rw [Option.isSome_map]
        exact h.isSome_eq old hold
      · rw [hstages]
        intro stage hstage channel hchannel
        obtain ⟨old, hold, rfl⟩ := List.mem_map.mp hstage
        obtain ⟨oldChannel, holdChannel, rfl⟩ := Option.map_eq_some_iff.mp hchannel
        exact replaceDims_inRange hexact (h.inRange old hold oldChannel holdChannel)
          hsymbols.length_le (hmoves.within htracked)
      · rw [hstages]
        intro index' hbox' offset passed helement
        obtain ⟨index, hbox, hold, hdims⟩ := hmoves.index index' hbox' offset passed helement
        have hfollows := h.follows index hbox offset passed hold
        rw [PlanBuilder.replaceChannelDims, List.forall₂_map_left_iff]
        rw [List.forall₂_iff_get] at hfollows ⊢
        refine ⟨hfollows.1, fun k hk hk' => ⟨(hfollows.2 k hk hk').op_eq, ?_⟩⟩
        intro channel hchannel
        obtain ⟨oldChannel, holdChannel, rfl⟩ := Option.map_eq_some_iff.mp hchannel
        obtain ⟨axis, haxis, i, hi, hvalue⟩ := (hfollows.2 k hk hk').channel oldChannel holdChannel
        have hmem := List.getElem_mem hk
        exact ⟨axis, haxis, i, hi, replaceDims_value hexact
          (h.inRange _ hmem oldChannel holdChannel) hsymbols
          (fun j hj => hdims htracked j (PlanBuilder.mentions_of_mem hmem holdChannel hj)) hvalue⟩

/-- Channels that are not rewritten follow the elements that have not moved. -/
theorem ChannelsFollow.same (h : ChannelsFollow σ plan tensor)
    (hstages : plan'.stages = plan.stages)
    (hsymbols : plan'.symbolNames = plan.symbolNames) (haxes : plan'.axes.length = plan.axes.length)
    (hindex : ∀ index, InBox tensor'.shape index → ∀ offset passed,
      tensor'.element index = ⟨.source offset, passed⟩ →
        InBox tensor.shape index ∧ tensor.element index = ⟨.source offset, passed⟩) :
    ChannelsFollow σ plan' tensor' := by
  refine ⟨hstages ▸ h.isSome_eq, ?_, ?_⟩
  · rw [hstages, hsymbols, haxes]
    exact h.inRange
  · rw [hstages, hsymbols]
    intro index hbox offset passed helement
    obtain ⟨hold, hsame⟩ := hindex index hbox offset passed helement
    exact h.follows index hold offset passed hsame

/-! ### The operations -/

theorem ChannelsFollow.transpose {perm : List Nat} (h : ChannelsFollow σ plan tensor)
    (htraces : Traces σ folding cells plan view tensor) (hexact : folding.Exact)
    (hfold : plan.foldTranspose folding perm = some plan')
    (happly : ChainOp.apply σ tensor (.transpose perm) = some tensor') :
    ChannelsFollow σ plan' tensor' := by
  obtain ⟨haxes, -, -, hstages, -, hsymbols⟩ := PlanBuilder.foldTranspose_eq_some hfold
  simp only [ChainOp.apply] at happly
  split at happly
  swap
  · cases happly
  rename_i hperm
  cases happly
  have hrank : tensor.shape.length = plan.axes.length := by
    rw [htraces.shape_eq, length_shape, htraces.length_eq]
  have hpermAxes : perm.Perm (List.range plan.axes.length) := hrank ▸ hperm
  have hcount : perm.length = plan.axes.length := by rw [hpermAxes.length_eq, List.length_range]
  have hplace : ∀ k, k < plan.axes.length →
      ((List.range plan.axes.length).map fun k => AffineExpr.dim (perm.idxOf k))[k]? =
        some (.dim (perm.idxOf k)) ∧ perm.idxOf k < plan.axes.length := by
    intro k hk
    refine ⟨?_, ?_⟩
    · rw [List.getElem?_map, List.getElem?_range hk]
      rfl
    · rw [← hcount]
      exact List.idxOf_lt_length_of_mem (hpermAxes.mem_iff.mpr (List.mem_range.mpr hk))
  refine h.moves hexact ⟨hstages, fun _ => ?_, fun _ k hk => ?_, ?_⟩
  · rw [hsymbols]
  · refine ⟨_, (hplace k hk).1, ?_⟩
    show perm.idxOf k < plan'.axes.length
    rw [haxes, length_select (mem_lt_of_perm hpermAxes), hcount]
    exact (hplace k hk).2
  · intro index' hbox offset passed helement
    have hlength : index'.length = perm.length := by
      rw [← hbox.length_eq, length_select (mem_lt_of_perm hperm)]
    have hback := select_restore (hcount ▸ hpermAxes) hlength
    refine ⟨restore perm index', ?_, helement, fun _ k hmentions => ?_⟩
    · rw [InBox, ← forall₂_select hperm, hback]
      · exact hbox
      · rw [length_restore, hcount, hrank]
    · have hk := h.lt_of_mentions hmentions
      have hvalue : (AffineExpr.dim (perm.idxOf k)).value σ plan'.symbolNames index' =
          some (index'.getD (perm.idxOf k) 0) := rfl
      refine ⟨_, _, (hplace k hk).1, ?_, hvalue⟩
      rw [restore, List.getElem?_map, List.getElem?_range (by omega)]
      rfl

theorem ChannelsFollow.reshape {targetShape : List SymExpr} (h : ChannelsFollow σ plan tensor)
    (htraces : Traces σ folding cells plan view tensor) (hexact : folding.Exact)
    (hcells : FitsI64 cells) (hone : 1 ≤ cells)
    (hfold : plan.foldReshape folding targetShape = some plan') (hdivides : plan'.Divisible σ)
    (happly : ChainOp.apply σ tensor (.reshape targetShape) = some tensor') :
    ChannelsFollow σ plan' tensor' := by
  obtain ⟨done, hloop, haxes, -, hdivisibility, -, -, hstages, hsymbols⟩ :=
    PlanBuilder.foldReshape_eq_some hfold
  simp only [ChainOp.apply, Option.bind_eq_bind, Option.bind_eq_some_iff] at happly
  obtain ⟨sizes, hsizes, happly⟩ := happly
  split at happly
  swap
  · cases happly
  rename_i hguard
  obtain ⟨hpos, hprod⟩ := hguard
  cases happly
  rw [PlanBuilder.Divisible, hdivisibility] at hdivides
  obtain ⟨news, -, -, hregroup, hgrows, hwithin, hfollows⟩ := htraces.relays hcells hone hloop
    (sizes_of_mapM hsizes) hpos hprod hdivides
  have hrank : plan'.axes.length = done.axes.length := by
    rw [haxes, List.length_map, List.length_zipIdx]
  have hmoved : done.moved.length = plan.axes.length := by
    rw [← List.length_map Prod.fst, hregroup.length_moved, htraces.length_eq]
  have hplace : ∀ (k : Nat) (hk : k < plan.axes.length),
      ∃ place, done.moved[k]? = some place ∧ place ∈ done.moved ∧
        (done.moved.map Prod.snd)[k]? = some place.2 := by
    intro k hk
    have hk' : k < done.moved.length := hmoved ▸ hk
    refine ⟨_, List.getElem?_eq_getElem hk', List.getElem_mem hk', ?_⟩
    rw [List.getElem?_map, List.getElem?_eq_getElem hk']
    rfl
  have htable : plan.tracksChannels = true → plan'.symbolNames = done.symbols := by
    intro htracked
    rw [hsymbols, htracked]
    rfl
  refine h.moves hexact ⟨hstages, fun htracked => ?_, fun htracked k hk => ?_, ?_⟩
  · rw [htable htracked]
    exact hgrows
  · obtain ⟨place, -, hmem, hsnd⟩ := hplace k hk
    refine ⟨place.2, hsnd, ?_⟩
    rw [hrank, htable htracked]
    exact hwithin hexact place hmem
  · intro index' hbox offset passed helement
    have hold := inBox_relayout htraces.positive hpos hprod.symm hbox
    refine ⟨_, hold, helement, fun htracked k hmentions => ?_⟩
    have hk := h.lt_of_mentions hmentions
    obtain ⟨place, hat, -, hsnd⟩ := hplace k hk
    have hlt : k < (relayout tensor.shape sizes index').length := by
      rw [relayout, length_unflat, htraces.shape_eq, length_shape, ← htraces.length_eq]
      exact hk
    refine ⟨place.2, _, hsnd, List.getElem?_eq_getElem hlt, ?_⟩
    rw [htable htracked, hfollows hexact htracked index' hbox k place hmentions hat]
    exact List.getElem?_eq_getElem hlt

/-- What folding a pad makes of the channels: nothing without a leading width, else their
    coordinate along the axis is less by the width. -/
theorem PlanBuilder.foldPad_channels {axis : Int} {lo hi : SymExpr} {value : TypedAttr}
    (h : plan.foldPad folding axis lo hi value = .ok plan') :
    (¬ (plan.tracksChannels = true ∧ lo ≠ .constant 0) ∧ plan'.stages = plan.stages ∧
        plan'.symbolNames = plan.symbolNames) ∨
      (plan.tracksChannels = true ∧
        plan'.stages = replaceChannelDims folding
          (((List.range plan.axes.length).map AffineExpr.dim).set axis.toNat
            (affineSub folding (.dim axis.toNat) (symToAffine folding lo plan.symbolNames).1))
          plan.stages ∧
        plan'.symbolNames = (symToAffine folding lo plan.symbolNames).2) := by
  have hshift : ∀ (padded : PlanBuilder α) (k : Nat), padded.axes = plan.axes →
      padded.stages = plan.stages → padded.symbolNames = plan.symbolNames →
      (¬ (plan.tracksChannels = true ∧ lo ≠ .constant 0) ∧
          (shiftChannels folding padded k lo).stages = plan.stages ∧
          (shiftChannels folding padded k lo).symbolNames = plan.symbolNames) ∨
        (plan.tracksChannels = true ∧
          (shiftChannels folding padded k lo).stages = replaceChannelDims folding
            (((List.range plan.axes.length).map AffineExpr.dim).set k
              (affineSub folding (.dim k) (symToAffine folding lo plan.symbolNames).1))
            plan.stages ∧
          (shiftChannels folding padded k lo).symbolNames =
            (symToAffine folding lo plan.symbolNames).2) := by
    intro padded k haxes hstages hsymbols
    have htracks : padded.tracksChannels = plan.tracksChannels := by
      rw [tracksChannels, tracksChannels, hstages]
    unfold shiftChannels
    rw [htracks]
    split
    · rename_i hboth
      refine .inr ⟨hboth.1, ?_, ?_⟩
      · dsimp only
        rw [haxes, hstages, hsymbols]
      · dsimp only
        rw [hsymbols]
    · rename_i hneither
      exact .inl ⟨hneither, hstages, hsymbols⟩
  unfold foldPad at h
  split at h
  · cases h
  split at h
  · cases h
  split at h
  · rename_i hzero
    cases h
    exact .inl ⟨fun hboth => hboth.2 hzero.1, rfl, rfl⟩
  split at h
  · cases h
    exact hshift _ axis.toNat rfl rfl rfl
  · split at h
    · cases h
    split at h
    · cases h
    cases h
    exact hshift _ axis.toNat rfl rfl rfl

theorem set_getElem?_self {values : List Int} {k : Nat} {i : Int} (hi : values[k]? = some i) :
    values.set k i = values := by
  obtain ⟨hlt, rfl⟩ := List.getElem?_eq_some_iff.mp hi
  exact List.set_getElem_self hlt

theorem ChannelsFollow.pad {axis : Int} {lo hi : SymExpr} {value : TypedAttr}
    (h : ChannelsFollow σ plan tensor) (htraces : Traces σ folding cells plan view tensor)
    (hexact : folding.Exact) (hfold : plan.foldPad folding axis lo hi value = .ok plan')
    (happly : ChainOp.apply σ tensor (.pad axis lo hi value) = some tensor') :
    ChannelsFollow σ plan' tensor' := by
  simp only [ChainOp.apply, Option.bind_eq_bind, Option.bind_eq_some_iff] at happly
  obtain ⟨size, hsize, below, hbelow, above, habove, happly⟩ := happly
  split at happly
  swap
  · cases happly
  cases happly
  obtain ⟨haxis0, haxislt, hkeeps⟩ := PlanBuilder.foldPad_eq_ok hfold
  have hrank : plan'.axes.length = plan.axes.length := by
    rcases hkeeps with ⟨-, -, rfl⟩ | ⟨haxes, -⟩
    · rfl
    · rw [haxes]
  have hshape : tensor.shape.length = plan.axes.length := by
    rw [htraces.shape_eq, length_shape, htraces.length_eq]
  -- an element from the source was inside, at the index less the width
  have hindex : ∀ index', InBox (tensor.shape.set axis.toNat (below + size + above)) index' →
      ∀ offset passed,
      (if below ≤ index'.getD axis.toNat 0 ∧ index'.getD axis.toNat 0 < below + size
        then tensor.element (index'.set axis.toNat (index'.getD axis.toNat 0 - below))
        else ⟨.fill value, []⟩) = ⟨.source offset, passed⟩ →
      ∃ i, index'[axis.toNat]? = some i ∧ InBox tensor.shape (index'.set axis.toNat (i - below)) ∧
        tensor.element (index'.set axis.toNat (i - below)) = ⟨.source offset, passed⟩ := by
    intro index' hbox offset passed helement
    have hlength : index'.length = tensor.shape.length := by
      rw [← hbox.length_eq, List.length_set]
    have hi : index'[axis.toNat]? = some (index'.getD axis.toNat 0) := by
      rw [List.getD_eq_getElem?_getD, List.getElem?_eq_getElem (by omega)]
      rfl
    split at helement
    · rename_i hinner
      exact ⟨_, hi, inBox_set hbox hsize (by omega) (by omega), helement⟩
    · cases helement
  rcases PlanBuilder.foldPad_channels hfold with ⟨hnone, hstages, hsymbols⟩ |
    ⟨htracked, hstages, hsymbols⟩
  · by_cases hlo : lo = .constant 0
    · have hzero : below = 0 := evalChecked_constant hlo hbelow
      subst hzero
      refine h.same hstages hsymbols hrank fun index' hbox offset passed helement => ?_
      obtain ⟨i, hi, hbox', hsame⟩ := hindex index' hbox offset passed helement
      rw [sub_zero, set_getElem?_self hi] at hbox' hsame
      exact ⟨hbox', hsame⟩
    · have huntracked : plan.tracksChannels = false := by
        by_contra htracks
        exact hnone ⟨Bool.not_eq_false _ ▸ htracks, hlo⟩
      refine h.untracked huntracked hstages fun index' hbox offset passed helement => ?_
      obtain ⟨i, -, hbox', hsame⟩ := hindex index' hbox offset passed helement
      exact ⟨_, hbox', hsame⟩
  · have hgrows : plan.symbolNames <+: plan'.symbolNames := by
      rw [hsymbols]
      exact prefix_symToAffine lo plan.symbolNames
    generalize hsub : PlanBuilder.affineSub folding (.dim axis.toNat)
      (PlanBuilder.symToAffine folding lo plan.symbolNames).1 = shifted at hstages
    have hdims : ∀ k, k < plan.axes.length →
        (((List.range plan.axes.length).map AffineExpr.dim).set axis.toNat shifted)[k]? =
          some (if axis.toNat = k then shifted else .dim k) := by
      intro k hk
      rw [List.getElem?_set, List.length_map, List.length_range, List.getElem?_map,
        List.getElem?_range hk]
      split
      · rw [if_pos (by omega)]
      · rfl
    have hstages' : plan'.stages = if plan.tracksChannels then
        PlanBuilder.replaceChannelDims folding
          (((List.range plan.axes.length).map AffineExpr.dim).set axis.toNat shifted) plan.stages
        else plan.stages := by
      rw [htracked, if_pos rfl]
      exact hstages
    refine h.moves hexact ⟨hstages', fun _ => hgrows, fun _ k hk => ?_, ?_⟩
    · refine ⟨_, hdims k hk, ?_⟩
      rw [hrank]
      split
      · rw [← hsub]
        refine affineSub_inRange hexact (by show axis.toNat < _; omega) ?_
        rw [hsymbols]
        exact symToAffine_inRange hexact _ lo plan.symbolNames
      · exact hk
    · intro index' hbox offset passed helement
      obtain ⟨i, hi, hbox', hsame⟩ := hindex index' hbox offset passed helement
      refine ⟨_, hbox', hsame, fun _ k hmentions => ?_⟩
      have hk := h.lt_of_mentions hmentions
      have hlength : index'.length = plan.axes.length := by
        rw [← hbox.length_eq, List.length_set, hshape]
      refine ⟨_, (index'.set axis.toNat (i - below)).getD k 0, hdims k hk, ?_, ?_⟩
      · rw [List.getD_eq_getElem?_getD, List.getElem?_eq_getElem (by rw [List.length_set]; omega)]
        rfl
      · rw [List.getD_eq_getElem?_getD, List.getElem?_set]
        split
        · rename_i hat
          subst hat
          rw [if_pos (by omega), Option.getD_some, ← hsub]
          refine affineSub_value hexact ?_ (symToAffine_value hexact index' hbelow ?_)
          · show some (index'.getD axis.toNat 0) = some i
            rw [List.getD_eq_getElem?_getD, hi]
            rfl
          · rw [hsymbols]
        · show some (index'.getD k 0) = _
          rw [List.getD_eq_getElem?_getD]

theorem ChannelsFollow.valueStage {stage : ValueOp α} (h : ChannelsFollow σ plan tensor)
    (htraces : Traces σ folding cells plan view tensor)
    (hfold : plan.foldValueStage folding stage = .ok plan')
    (happly : ChainOp.apply σ tensor (.value stage) = some tensor') :
    ChannelsFollow σ plan' tensor' := by
  obtain ⟨-, haxis, -, haxes, -, -, hsymbols, hstages, -⟩ :=
    PlanBuilder.foldValueStage_eq_ok hfold
  cases happly
  constructor
  · rw [hstages]
    intro folded hfolded
    rcases List.mem_append.mp hfolded with hold | hnew
    · exact h.isSome_eq folded hold
    · rw [List.mem_singleton.mp hnew, Option.isSome_map]
  · rw [hstages, haxes, hsymbols]
    intro folded hfolded channel hchannel
    rcases List.mem_append.mp hfolded with hold | hnew
    · exact h.inRange folded hold channel hchannel
    · rw [List.mem_singleton.mp hnew] at hchannel
      obtain ⟨axis, hsome, rfl⟩ := Option.map_eq_some_iff.mp hchannel
      have hrange := haxis axis hsome
      show axis.toNat < _
      omega
  · rw [hstages, hsymbols]
    intro index hbox offset passed helement
    dsimp only at helement
    rw [ChainElement.mk.injEq] at helement
    obtain ⟨horigin, rfl⟩ := helement
    have hold : tensor.element index = ⟨.source offset, (tensor.element index).passed⟩ := by
      rw [← horigin]
    refine List.rel_append (h.follows index hbox offset _ hold) ?_
    refine List.Forall₂.cons ⟨rfl, ?_⟩ List.Forall₂.nil
    intro channel hchannel
    obtain ⟨axis, hsome, rfl⟩ := Option.map_eq_some_iff.mp hchannel
    have hlength : index.length = plan.axes.length := by
      rw [htraces.length_eq]
      exact (htraces.length_index hbox).symm
    obtain ⟨hnonneg, hlt⟩ := haxis axis hsome
    have hindex : axis.toNat < index.length := by omega
    refine ⟨axis, hsome, index.getD axis.toNat 0, ?_, rfl⟩
    rw [List.getD_eq_getElem?_getD, List.getElem?_eq_getElem hindex]
    rfl

/-! ### A chain -/

theorem ChannelsFollow.start :
    ChannelsFollow σ (PlanBuilder.start input : PlanBuilder α) (Tensor.source sizes) := by
  refine ⟨fun stage hstage => ?_, fun stage hstage => ?_, fun index _ offset passed helement => ?_⟩
  · exact absurd hstage List.not_mem_nil
  · exact absurd hstage List.not_mem_nil
  · cases helement
    exact List.Forall₂.nil

theorem ChannelsFollow.foldChainOp (h : ChannelsFollow σ plan tensor)
    (htraces : Traces σ folding cells plan view tensor) (hexact : folding.Exact)
    (hcells : FitsI64 cells) (hone : 1 ≤ cells)
    (hfold : plan.foldChainOp folding op = .ok plan') (hdivides : plan'.Divisible σ)
    (happly : ChainOp.apply σ tensor op = some tensor') : ChannelsFollow σ plan' tensor' := by
  cases op with
  | transpose perm => exact h.transpose htraces hexact (getD_map_ok.mp hfold) happly
  | reshape targetShape =>
      exact h.reshape htraces hexact hcells hone (getD_map_ok.mp hfold) hdivides happly
  | pad axis lo hi value => exact h.pad htraces hexact hfold happly
  | value op => exact h.valueStage htraces hfold happly

/-- Folding a chain keeps the channels on the elements, as it keeps the tensor. -/
theorem ChannelsFollow.foldChain (h : ChannelsFollow σ plan tensor)
    (htraces : Traces σ folding cells plan view tensor) (hexact : folding.Exact)
    (hcells : FitsI64 cells) (hone : 1 ≤ cells)
    (hfold : PlanBuilder.foldChain folding ops plan = .ok plan') (hdivides : plan'.Divisible σ)
    (hrun : ChainOp.run σ ops tensor = some tensor') : ChannelsFollow σ plan' tensor' := by
  induction ops generalizing plan view tensor with
  | nil =>
      cases hfold
      cases hrun
      exact h
  | cons op ops ih =>
      rw [PlanBuilder.foldChain, except_bind_eq_ok] at hfold
      obtain ⟨mid, hop, hrest⟩ := hfold
      rw [ChainOp.run, Option.bind_eq_some_iff] at hrun
      obtain ⟨midTensor, happly, hrun⟩ := hrun
      have hmid : mid.Divisible σ := fun constraint hmem =>
        hdivides constraint ((PlanBuilder.foldChain_keeps hrest).2.1 hmem)
      obtain ⟨midView, hmidTraces⟩ := htraces.foldChainOp hcells hone hop hmid happly
      exact ih (h.foldChainOp htraces hexact hcells hone hop hmid happly) hmidTraces hrest hrun

/-- The value stages of a folded chain select what the operations select: a stage has a channel
    where it has an axis, an expression of the destination coordinates and the symbols of the
    table, and at every index its value is the coordinate that the element there had along the
    axis when it passed the stage. -/
theorem foldChain_channels (hexact : folding.Exact)
    (hfold : PlanBuilder.foldChain folding ops (PlanBuilder.start input) = .ok plan)
    (hsizes : input.shape.mapM (evalChecked σ) = some sizes) (hpos : Positive sizes)
    (hfits : FitsI64 sizes.prod)
    (hrun : ChainOp.run σ ops (Tensor.source sizes) = some tensor) (hdivides : plan.Divisible σ) :
    (∀ stage ∈ plan.stages, stage.channel.isSome = stage.op.axis.isSome ∧
      ∀ channel ∈ stage.channel,
        channel.InRange tensor.shape.length plan.symbolNames.length) ∧
    ∀ index, InBox tensor.shape index → ∀ offset passed,
      tensor.element index = ⟨.source offset, passed⟩ →
        List.Forall₂ (StageFollows σ plan.symbolNames index) plan.stages passed := by
  have hstart : Traces σ folding sizes.prod (PlanBuilder.start input : PlanBuilder α) _
      (Tensor.source sizes) := Traces.start (sizes_of_mapM hsizes) hpos hfits
  have hone := hpos.one_le_prod
  obtain ⟨view, htraces⟩ := hstart.foldChain hfits hone hfold hdivides hrun
  have hfollow := ChannelsFollow.start.foldChain hstart hexact hfits hone hfold hdivides hrun
  refine ⟨fun stage hstage => ⟨hfollow.isSome_eq stage hstage, ?_⟩, hfollow.follows⟩
  rw [htraces.shape_eq, length_shape, ← htraces.length_eq]
  exact hfollow.inRange stage hstage

/-- Three rows, each with a scale of its own, flattened. -/
def scaledRowsInput : SymbolicTensorType :=
  ⟨[.constant 3, .symbol [110]], .f32, MlirType.isTensorElement_f32⟩

def scaleRows : ValueOp Nat :=
  ⟨.quantize, .symmetricRne, .f32, .signless 8, scaledRowsInput.shape, some 0, none, some 0⟩

def scaledRowsOps : List (ChainOp Nat) :=
  [.value scaleRows, .reshape [.binary .mul (.symbol [110]) (.constant 3)]]

/-- A product with one is the other factor. -/
def unitProducts : Folding Nat where
  affine := fun kind lhs rhs =>
    if kind = .mul ∧ lhs = .constant 1 then rhs else .binary kind lhs rhs
  foldFillThroughStage := fun _ _ => none

theorem unitProducts_exact : unitProducts.Exact := by
  constructor
  · intro kind lhs rhs σ names index value hvalue
    unfold unitProducts
    dsimp only
    split
    · rename_i hunit
      obtain ⟨rfl, rfl⟩ := hunit
      obtain ⟨l, r, hl, hr, happly⟩ := AffineExpr.value_binary.mp hvalue
      cases hl
      rw [← happly, hr]
      exact congrArg some (one_mul r).symm
    · exact hvalue
  · intro kind lhs rhs numDims numSymbols hl hr
    unfold unitProducts
    dsimp only
    split
    · exact hr
    · exact ⟨hl, hr⟩

def scaledRowsPlan : PlanBuilder Nat where
  src := .packed scaledRowsInput.shape .f32 MlirType.isTensorElement_f32
  axes := [⟨axisName 0, .binary .mul (.symbol [110]) (.constant 3), .constant 1⟩]
  perm := [0]
  divisibility := []
  pads := []
  elementType := .signless 8
  stages := [⟨scaleRows, some (.binary .floorDiv (.dim 0) (.symbol 0))⟩]
  symbolNames := [[110]]

theorem foldChain_scaledRows :
    PlanBuilder.foldChain unitProducts scaledRowsOps (PlanBuilder.start scaledRowsInput) =
      .ok scaledRowsPlan := rfl

theorem foldChain_channels_scaledRows : ∃ tensor,
    ChainOp.run eightRows scaledRowsOps (Tensor.source [3, 8]) = some tensor ∧
    ∀ index, InBox tensor.shape index → ∀ offset passed,
      tensor.element index = ⟨.source offset, passed⟩ →
        List.Forall₂ (StageFollows eightRows [[110]] index)
          [⟨scaleRows, some (.binary .floorDiv (.dim 0) (.symbol 0))⟩] passed := by
  have hsizes : scaledRowsInput.shape.mapM (evalChecked eightRows) = some [3, 8] := rfl
  refine ⟨_, rfl, ?_⟩
  refine (foldChain_channels unitProducts_exact foldChain_scaledRows hsizes ?_ ?_ rfl ?_).2
  all_goals decide

end SymReloc
