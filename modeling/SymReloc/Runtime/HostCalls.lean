import SymReloc.Runtime.KernelOrder

/-!
# Checked calls

What the checks of `executeHost` and `executeHostChunk` establish of a call of a
prepared program, which layouts and channels the selected kernel has, and the elements
it writes, in its order.
-/

namespace SymReloc

open Outcome Writes

/-! ### Ranges of stages -/

namespace Program

variable {program : Program} {plan : TypedRelocationPlan} {fromStage toStage : Nat}

theorem range_cons (h : fromStage < toStage) (hle : toStage ≤ program.stages.length) :
    ∃ stage, program.stages[fromStage]? = some stage ∧
      program.range fromStage toStage =
        (stage, fromStage) :: program.range (fromStage + 1) toStage := by
  have hlt : fromStage < program.stages.length := by omega
  refine ⟨program.stages[fromStage], List.getElem?_eq_getElem hlt, ?_⟩
  have hlength : fromStage < (program.stages.zipIdx.take toStage).length := by
    rw [List.length_take, List.length_zipIdx]
    omega
  rw [range, List.drop_eq_getElem_cons hlength, List.getElem_take, List.getElem_zipIdx,
    Nat.zero_add]
  rfl

theorem range_self (k : Nat) : program.range k k = [] := by
  rw [range, List.drop_eq_nil_iff, List.length_take]
  exact min_le_left _ _

theorem mem_range {entry : StageArithmetic × Nat} (h : entry ∈ program.range fromStage toStage) :
    program.stages[entry.2]? = some entry.1 := by
  have hmem := List.mem_of_mem_take (List.mem_of_mem_drop h)
  exact List.mem_zipIdx_iff_getElem?.mp hmem

namespace Sound

/-- The stages of a prepared program are sound. -/
theorem stage_sound (h : program.Sound plan) {k : Nat} {stage : StageArithmetic}
    (hk : program.stages[k]? = some stage) : stage.Sound := by
  obtain ⟨declared, bound, -, -, -, hbinds, hrun⟩ := h.each k stage hk
  exact BoundStage.Prepares.sound hbinds hrun

theorem rangeChain (h : program.Sound plan) (hle : fromStage ≤ toStage)
    (hlength : toStage ≤ program.stages.length) :
    RangeChain (plan.boundaryType fromStage) (program.range fromStage toStage)
      (plan.boundaryType toStage) := by
  obtain ⟨count, rfl⟩ := Nat.exists_eq_add_of_le hle
  induction count generalizing fromStage with
  | zero =>
      rw [Nat.add_zero, range_self]
      rfl
  | succ count ih =>
      obtain ⟨stage, hstage, hrange⟩ := @range_cons program _ _
        (show fromStage < fromStage + (count + 1) by omega) hlength
      have htypes := h.inputs fromStage stage hstage
      have hnext : fromStage + (count + 1) = fromStage + 1 + count := by omega
      rw [hrange]
      refine ⟨htypes.1, ?_⟩
      rw [htypes.2, hnext]
      exact ih (by omega) (by omega)

/-- Every boundary has a type with a typed array. -/
theorem buffered (h : program.Sound plan) {k : Nat} (hk : k ≤ program.stages.length) :
    (plan.boundaryType k).Buffered := by
  have hpos := List.length_pos_of_ne_nil h.stages_ne
  by_cases hlt : k < program.stages.length
  · have hstage := List.getElem?_eq_getElem hlt
    rw [← (h.inputs k _ hstage).1]
    exact (h.stage_sound hstage).typed.buffered.1
  · have hlt' : k - 1 < program.stages.length := by omega
    have hstage := List.getElem?_eq_getElem hlt'
    have htype := (h.inputs (k - 1) _ hstage).2
    rw [Nat.sub_add_cancel (by omega)] at htype
    rw [← htype]
    exact (h.stage_sound hstage).typed.buffered.2

theorem widthAt_eq (h : program.Sound plan) {k : Nat} (hk : k ≤ program.stages.length) :
    program.widthAt k = .ok (byteWidth (plan.boundaryType k)) := by
  rw [widthAt, h.types k hk, ok_bind, pure_eq]

end Sound

end Program

theorem ElementType.Buffered.width {type : ElementType} (h : type.Buffered) :
    (bufferArray type).width = byteWidth type ∧
      (byteWidth type = 4 ∨ byteWidth type = 2 ∨ byteWidth type = 1) := by
  rcases h with h | h | h | h
  · rw [bufferArray_of_f32 h]
    simp [byteWidth, h.2, BufferArray.width]
  · rw [bufferArray_of_half (.inl h)]
    simp [byteWidth, h.2, BufferArray.width]
  · rw [bufferArray_of_half (.inr h)]
    simp [byteWidth, h.2, BufferArray.width]
  · rw [bufferArray_of_int8 h]
    simp [byteWidth, h.2, BufferArray.width]

/-! ### Channels that are coordinates -/

theorem channelDimension_dim {plan : TypedBoundPlan} {channel : ExprStream} {dim : Nat}
    (h : channelDimension plan channel = (true, dim)) :
    ∃ extent, plan.resultExtents[dim]? = some extent := by
  unfold channelDimension at h
  split at h
  · split at h
    · rename_i dim' rest extent hextent
      obtain ⟨-, rfl⟩ := Prod.mk.injEq .. ▸ h
      exact ⟨extent, hextent⟩
    · cases h
  · cases h

/-- A range with simple channels. -/
theorem Program.Sound.simple {program : Program} {plan : TypedRelocationPlan}
    (h : program.Sound plan) {fromStage toStage : Nat} {span : Int}
    (hsimple : program.simpleChannels fromStage toStage span) :
    program.Simple (program.range fromStage toStage) := by
  refine ⟨fun entry hentry => h.stage_sound (mem_range hentry), fun entry hentry hflag => ?_⟩
  obtain ⟨hdim, -, hlength⟩ := hsimple entry hentry hflag
  obtain ⟨declared, bound, -, -, -, -, hrun⟩ := h.each entry.2 entry.1 (mem_range hentry)
  obtain ⟨-, hbare, hchannel⟩ := prepareStage_eq_ok hrun
  cases hbound : bound.channel with
  | none =>
      rw [(hbare hbound).1] at hflag
      cases hflag
  | some channel =>
      have hdimension := (hchannel channel hbound).2.2.2.2
      rw [hdim] at hdimension
      obtain ⟨extent, hextent⟩ := channelDimension_dim hdimension.symm
      have hpos := h.extents.2 extent (List.mem_of_getElem? hextent)
      obtain ⟨stride, hstride, hstridePos, -⟩ := rowMajorStrides_getElem? h.extents.2 hextent
      rw [Program.channelExtent, List.getD_eq_getElem?_getD, hextent, Option.getD_some] at hlength
      exact ⟨hdim, stride, extent, h.strides ▸ hstride, hextent, hstridePos, hpos, hlength⟩

/-! ### Checked calls -/

/-- What the checks of a call establish. -/
structure HostCall.Checked (program : Program) (fromStage toStage : Nat) (chunk : Option Chunk)
    (source : Memory Nat) (call : HostCall) : Prop where
  range : fromStage ≤ toStage ∧ toStage ≤ program.stages.length
  settled : program.padsSettledBy toStage = true
  fill : program.fillAt toStage = .ok call.fill
  widthFrom : program.widthAt fromStage = .ok call.state.widthFrom
  widthTo : program.widthAt toStage = .ok call.state.widthTo
  state : call.state = { program, fromStage, toStage, source, widthFrom := call.state.widthFrom,
                         widthTo := call.state.widthTo, origin := call.window.origin }
  kernel : call.kernel = program.hostKernel fromStage toStage
  window : resolveWindow program toStage call.state.widthTo chunk = .ok call.window

theorem prologue_eq_ok {program : Program} {fromStage toStage : Nat} {chunk : Option Chunk}
    {source : Memory Nat} {call : HostCall}
    (h : prologue program fromStage toStage chunk source = .ok call) :
    call.Checked program fromStage toStage chunk source := by
  simp only [prologue, bind_ok_iff, exists_unit, require_eq_ok, pure_eq, Outcome.ok.injEq] at h
  obtain ⟨hrange, hsettled, fill, hfill, widthTo, hwidthTo, window, hwindow, widthFrom, hwidthFrom,
    rfl⟩ := h
  exact ⟨hrange, hsettled, hfill, hwidthFrom, hwidthTo, rfl, rfl, hwindow⟩

/-! ### Kernel selection -/

/-- A kernel other than the generic walk needs simple channels. -/
theorem Program.simple_of_hostKernel {program : Program} {fromStage toStage : Nat}
    (h : program.hostKernel fromStage toStage ≠ .generic) :
    ∃ inner ∈ program.plan.layout.walkAxes.getLast?,
      program.simpleChannels fromStage toStage inner.extent := by
  unfold Program.hostKernel at h
  dsimp only at h
  split at h
  · exact absurd rfl h
  · rename_i inner hinner
    by_cases hgeneric : toStage < fromStage ∨ program.stages.length < toStage ∨
        ¬ program.simpleChannels fromStage toStage inner.extent
    · rw [if_pos hgeneric] at h
      exact absurd rfl h
    · rw [not_or, not_or, not_not] at hgeneric
      exact ⟨inner, hinner, hgeneric.2.2⟩

theorem Program.hostKernel_tiled {program : Program} {fromStage toStage : Nat}
    (h : program.hostKernel fromStage toStage = .tiledTranspose) :
    tiledLayout program.plan.layout.walkAxes := by
  unfold Program.hostKernel at h
  dsimp only at h
  split at h
  · cases h
  · split at h
    · cases h
    · by_contra hnot
      rw [if_neg hnot] at h
      split at h
      · cases h
      · split at h
        · split at h <;> cases h
        · cases h

theorem Program.hostKernel_strided {program : Program} {fromStage toStage : Nat}
    (h : program.hostKernel fromStage toStage = .stridedRuns) :
    stridedLayout program.plan.layout.padRegions program.plan.layout.walkAxes := by
  unfold Program.hostKernel at h
  dsimp only at h
  split at h
  · cases h
  · split at h
    · cases h
    · split at h
      · cases h
      · by_contra hnot
        rw [if_neg hnot] at h
        split at h
        · split at h <;> cases h
        · cases h

theorem Program.hostKernel_contiguous {program : Program} {fromStage toStage : Nat}
    (h : program.hostKernel fromStage toStage = .contiguousCast ∨
      program.hostKernel fromStage toStage = .contiguousStages) :
    (∀ axis ∈ program.plan.layout.walkAxes.getLast?, axis.srcStride = 1 ∧ axis.dstStride = 1) ∧
      (program.hostKernel fromStage toStage = .contiguousCast →
        program.narrowCast fromStage toStage) := by
  unfold Program.hostKernel at h ⊢
  dsimp only at h ⊢
  split at h
  · rcases h with h | h <;> cases h
  · rename_i inner hinner
    rw [hinner]
    split at h
    · rcases h with h | h <;> cases h
    · rename_i hsimple
      split at h
      · rcases h with h | h <;> cases h
      · rename_i htiled
        split at h
        · rcases h with h | h <;> cases h
        · rename_i hstrided
          rw [if_neg hsimple, if_neg htiled, if_neg hstrided]
          split at h
          · rename_i hunit
            rw [if_pos hunit]
            refine ⟨fun axis haxis => ?_, fun hcast => ?_⟩
            · cases haxis
              exact hunit
            · by_contra hnot
              rw [if_neg hnot] at hcast
              cases hcast
          · rcases h with h | h <;> cases h

/-! ### The elements of a call -/

theorem narrows_of_narrowCast {program : Program} {plan : TypedRelocationPlan}
    (hsound : program.Sound plan) {state : WalkState} {fromStage toStage : Nat}
    (hrange : state.range = program.range fromStage toStage)
    (hwidth : state.widthFrom = byteWidth (plan.boundaryType fromStage))
    (hcast : program.narrowCast fromStage toStage) : state.Narrows := by
  obtain ⟨rfl, stage, hstage, htransform, hin, hout⟩ := hcast
  rw [Option.mem_def] at hstage
  have hlt : fromStage + 1 ≤ program.stages.length := (List.getElem?_eq_some_iff.mp hstage).1
  obtain ⟨stage', hstage', hcons⟩ := Program.range_cons (Nat.lt_succ_self fromStage) hlt
  cases hstage.symm.trans hstage'
  have htype := (hsound.inputs fromStage stage hstage).1
  constructor
  · exact ⟨stage, fromStage, by rw [hrange, hcons, Program.range_self], htransform, hin, hout⟩
  · rw [hwidth, ← htype, byteWidth, hin.2]
    rfl

namespace HostCall

/-- The elements of the units `[first, last)`, in the order of the kernel. -/
def order (call : HostCall) (first last : Int) : List (Int × Int) :=
  let begin := call.window.first
  match call.kernel, call.layout.walkAxes with
  | .stridedRuns, [outer, middle, inner] =>
      if middle.srcStride ≤ outer.srcStride then
        WalkState.rowStrips outer middle inner (begin + first) (begin + last)
      else WalkState.columnStrips outer middle inner (begin + first) (begin + last)
  | .tiledTranspose, [outer, inner] =>
      WalkState.tileVisits outer inner (begin + first * kTypedTile)
        (min call.window.last (begin + last * kTypedTile))
  | _, axes => rangedVisits axes (begin + first) (begin + last) 0 0

namespace Checked

variable {program : Program} {plan : TypedRelocationPlan} {fromStage toStage : Nat}
  {chunk : Option Chunk} {source : Memory Nat} {call : HostCall}

theorem program_eq (h : call.Checked program fromStage toStage chunk source) :
    call.state.program = program ∧ call.state.fromStage = fromStage ∧
      call.state.toStage = toStage ∧ call.state.source = source ∧
      call.state.origin = call.window.origin := by
  rw [h.state]
  exact ⟨rfl, rfl, rfl, rfl, rfl⟩

theorem range_eq (h : call.Checked program fromStage toStage chunk source) :
    call.state.range = program.range fromStage toStage := by
  rw [h.state]
  rfl

theorem layout_eq (h : call.Checked program fromStage toStage chunk source) :
    call.layout = program.plan.layout := by
  rw [layout, h.program_eq.1]

theorem widths (hsound : program.Sound plan)
    (h : call.Checked program fromStage toStage chunk source) :
    call.state.widthFrom = byteWidth (plan.boundaryType fromStage) ∧
      call.state.widthTo = byteWidth (plan.boundaryType toStage) := by
  have hwidthFrom := h.widthFrom
  have hwidthTo := h.widthTo
  rw [hsound.widthAt_eq (h.range.1.trans h.range.2), Outcome.ok.injEq] at hwidthFrom
  rw [hsound.widthAt_eq h.range.2, Outcome.ok.injEq] at hwidthTo
  exact ⟨hwidthFrom.symm, hwidthTo.symm⟩

/-- The typed arrays of the kernels fit the boundaries of a call. -/
theorem buffered (hsound : program.Sound plan)
    (h : call.Checked program fromStage toStage chunk source) (hkernel : call.kernel ≠ .generic) :
    call.state.Buffered (plan.boundaryType fromStage) (plan.boundaryType toStage) := by
  have hle := h.range.1.trans h.range.2
  obtain ⟨hwidthFrom, hwidthTo⟩ := h.widths hsound
  obtain ⟨hprogram, hfromStage, htoStage, -, -⟩ := h.program_eq
  obtain ⟨inner, -, hsimple⟩ := Program.simple_of_hostKernel (h.kernel ▸ hkernel)
  constructor
  · rw [hprogram, h.range_eq]
    exact hsound.simple hsimple
  · rw [hprogram, hfromStage]
    exact hsound.types fromStage hle
  · rw [hprogram, htoStage]
    exact hsound.types toStage h.range.2
  · rw [h.range_eq]
    exact hsound.rangeChain h.range.1 h.range.2
  · rw [hwidthFrom]
    exact (hsound.buffered hle).width.1
  · rw [hwidthTo]
    exact (hsound.buffered h.range.2).width.1

theorem narrows (hsound : program.Sound plan)
    (h : call.Checked program fromStage toStage chunk source)
    (hcast : call.state.program.narrowCast call.state.fromStage call.state.toStage) :
    call.state.Narrows := by
  obtain ⟨hprogram, hfromStage, htoStage, -, -⟩ := h.program_eq
  rw [hprogram, hfromStage, htoStage] at hcast
  exact narrows_of_narrowCast hsound h.range_eq (h.widths hsound).1 hcast

theorem contiguous_eq (hsound : program.Sound plan)
    (h : call.Checked program fromStage toStage chunk source)
    (hkernel : call.kernel = .contiguousCast ∨ call.kernel = .contiguousStages) (aligned : Bool)
    {first last : Int} (hfirst : 0 ≤ first) (hle : first ≤ last) :
    call.walkRows call.mode aligned first last =
      .ok ((rangedVisits call.layout.walkAxes first last 0 0).map call.state.move) := by
  have hgeneric : call.kernel ≠ .generic := by
    rcases hkernel with hcase | hcase <;> rw [hcase] <;> decide
  obtain ⟨hlast, hnarrow⟩ := Program.hostKernel_contiguous (h.kernel ▸ hkernel)
  have haxes := hsound.laid.axes
  rw [walkRows, h.layout_eq]
  refine (h.buffered hsound hgeneric).walkElements_eq ?_ (fun hmode => ?_) aligned
    (fun axis haxis => ?_) hlast hfirst hle (le_refl 0)
  · simp [mode, hkernel]
  · have hcase : call.kernel = .contiguousCast := by simpa [mode] using hmode
    refine h.narrows hsound ?_
    obtain ⟨hprogram, hfromStage, htoStage, -, -⟩ := h.program_eq
    rw [hprogram, hfromStage, htoStage]
    exact hnarrow (h.kernel.symm.trans hcase)
  · have := haxes axis haxis
    omega

/-- A kernel other than the generic walk writes the elements of its order. -/
theorem work_eq (hsound : program.Sound plan)
    (h : call.Checked program fromStage toStage chunk source) (hkernel : call.kernel ≠ .generic)
    (hwindow : 0 ≤ call.window.first) (aligned : Bool) {first last : Int} (hfirst : 0 ≤ first)
    (hle : first ≤ last) :
    call.work aligned first last = .ok ((call.order first last).map call.state.move) := by
  have hbuffered := h.buffered hsound hkernel
  have haxes := hsound.laid.axes
  have hlayout := h.layout_eq
  have hselected := h.kernel
  cases hcase : call.kernel with
  | generic => exact absurd hcase hkernel
  | stridedRuns =>
      rw [hcase] at hselected
      have hstrided := Program.hostKernel_strided hselected.symm
      unfold work order
      rw [hcase, hlayout]
      generalize program.plan.layout.walkAxes = axes at hstrided haxes
      match axes, hstrided with
      | [outer, middle, inner], hstrided =>
          simp only
          have houter := haxes outer (by simp)
          have hmiddle := haxes middle (by simp)
          have hinner := haxes inner (by simp)
          refine hbuffered.stridedRuns_eq (fun hdirect => ?_) ⟨houter.2.2, hmiddle.2.2⟩ (by omega)
            (by omega)
          rw [decide_eq_true_eq] at hdirect
          exact h.narrows hsound hdirect.1
  | tiledTranspose =>
      rw [hcase] at hselected
      have htiled := Program.hostKernel_tiled hselected.symm
      unfold work order
      rw [hcase, hlayout]
      generalize program.plan.layout.walkAxes = axes at htiled haxes
      match axes, htiled with
      | [outer, inner], htiled =>
          simp only
          have houter := haxes outer (by simp)
          have hinner := haxes inner (by simp)
          have hwidth := (hsound.buffered (h.range.1.trans h.range.2)).width.2
          rw [← (h.widths hsound).1] at hwidth
          exact hbuffered.transpose_eq hwidth ⟨houter.2.1.1, hinner.2.1.1⟩ houter.2.2
            (by unfold kTypedTile; omega)
  | contiguousCast =>
      have hwork : call.work aligned first last = call.walkRows call.mode aligned
          (call.window.first + first) (call.window.first + last) := by
        unfold work
        rw [hcase]
      have horder : call.order first last = rangedVisits call.layout.walkAxes
          (call.window.first + first) (call.window.first + last) 0 0 := by
        unfold order
        rw [hcase]
      rw [hwork, horder]
      exact h.contiguous_eq hsound (.inl hcase) aligned (by omega) (by omega)
  | contiguousStages =>
      have hwork : call.work aligned first last = call.walkRows call.mode aligned
          (call.window.first + first) (call.window.first + last) := by
        unfold work
        rw [hcase]
      have horder : call.order first last = rangedVisits call.layout.walkAxes
          (call.window.first + first) (call.window.first + last) 0 0 := by
        unfold order
        rw [hcase]
      rw [hwork, horder]
      exact h.contiguous_eq hsound (.inr hcase) aligned (by omega) (by omega)

end Checked

end HostCall

end SymReloc
