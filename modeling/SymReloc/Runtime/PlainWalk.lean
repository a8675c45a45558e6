import SymReloc.Runtime.RowWindows

/-!
# The plain walk

The walk that the kernels stand for: one element after the other in row-major order,
each through its stages with the value of the stages' channel maps at its coordinate.
Whichever kernel is selected, a unit of work does the same to every element, in an
order of the kernel's own.
-/

namespace SymReloc

open Outcome Writes

/-! ### One element -/

/-- The channel of a stage at a coordinate, by its channel map. -/
def channelOf (program : Program) (coords : List Int) (stage : StageArithmetic) (k : Nat) :
    Outcome ExecutionError Int :=
  if stage.perChannel then do
    let bound ← fetch program.plan.stages k
    let channel ← (evalChannel (bound.channel.getD []) program.plan.symbols coords).mapError
      fun why => stageFailure k .channelEvaluationFailed why.message
    require (0 ≤ channel ∧ channel < stage.channelLength) (stageFailure k .channelOutOfRange
      ("selected channel " ++ toString channel ++ " of " ++ toString stage.channelLength))
    pure channel
  else .ok 0

def stagesAt (program : Program) (coords : List Int) :
    List (StageArithmetic × Nat) → Nat → Outcome ExecutionError Nat
  | [], bits => .ok bits
  | (stage, k) :: rest, bits => do
      let channel ← channelOf program coords stage k
      stagesAt program coords rest (applyStage stage bits channel)

def plainElement (state : WalkState) (offsets : Int × Int) : Outcome ExecutionError CellWrite := do
  let bits ← stagesAt state.program (coordsOf state.program.resultStrides offsets.2) state.range
    (state.loadBits offsets.1)
  pure (state.storeBits offsets.2 bits)

/-- The source and destination offsets of a call's rows. -/
def HostCall.moves (call : HostCall) : List (Int × Int) :=
  rangedVisits call.layout.walkAxes call.window.first call.window.last 0 0

/-- The rows of a call, element by element. -/
def plainWalk (program : Program) (fromStage toStage : Nat) (chunk : Option Chunk)
    (source memory : Memory Nat) : Outcome ExecutionError (Memory Nat) := do
  let call ← prologue program fromStage toStage chunk source
  let writes ← call.bounded (mapEach call.moves (plainElement call.state))
  pure (run writes (run (prefill call.state.widthTo call.window call.fill) memory))

/-! ### Channels -/

theorem floorDiv_of_lt {v modulus : Int} (hv : 0 ≤ v ∧ v < modulus) :
    floorDiv v modulus = .ok 0 := by
  have hquotient : v.tdiv modulus = 0 := Int.tdiv_eq_zero_of_lt hv.1 hv.2
  have hneg : ¬ v < 0 := by omega
  have hneg' : ¬ modulus < 0 := by omega
  rw [floorDiv, if_neg (by omega), if_neg (by omega)]
  simp [hquotient, hneg, hneg']

/-- A token without coordinates has the same value at any of them. -/
theorem evalToken_congr {symbols coords stack : List Int} {token : ExprToken} {value : Int}
    (hdim : ∀ dim, token ≠ .pushDim dim) (hop : ∀ op, token ≠ .apply op)
    (h : evalChannel [token] symbols [] = .ok value) :
    evalToken symbols (some coords) token stack = .ok (value :: stack) := by
  cases token with
  | pushDim dim => exact absurd rfl (hdim dim)
  | apply op => exact absurd rfl (hop op)
  | pushConst constant =>
      simp only [evalChannel, evalStream, evalTokens, evalToken, ok_bind, pure_eq,
        Outcome.ok.injEq] at h
      rw [h, evalToken]
  | pushSym index =>
      simp only [evalChannel, evalStream, evalTokens, evalToken] at h ⊢
      cases hsymbol : symbols[index]? with
      | none =>
          rw [hsymbol] at h
          cases h
      | some symbol =>
          rw [hsymbol] at h
          simp only [ok_bind, pure_eq, Outcome.ok.injEq] at h
          rw [h]

/-- A channel map that is one result coordinate evaluates to it. -/
theorem evalChannel_of_dimension {plan : TypedBoundPlan} {channel : ExprStream} {dim : Nat}
    {coords : List Int} {v : Int} (h : channelDimension plan channel = (true, dim))
    (hcoord : coords[dim]? = some v) (hv : 0 ≤ v)
    (hlt : ∀ extent, plan.resultExtents[dim]? = some extent → v < extent) (hfits : FitsI64 v) :
    evalChannel channel plan.symbols coords = .ok v := by
  unfold channelDimension at h
  split at h
  · rename_i dim' rest
    split at h
    · rename_i extent hextent
      obtain ⟨hrest, rfl⟩ := Prod.mk.injEq .. ▸ h
      have hbound := hlt extent hextent
      have hpush : evalToken plan.symbols (some coords) (.pushDim dim') [] = .ok [v] := by
        simp only [evalToken, hcoord]
      rw [evalChannel, evalStream, evalTokens, hpush, ok_bind]
      unfold channelIsDimension at hrest
      split at hrest
      · rfl
      · rename_i token
        split at hrest
        · split at hrest
          · rename_i constant modulus hmodulus
            rw [decide_eq_true_eq] at hrest
            rw [evalTokens, evalToken_congr (by simp) (by simp) hmodulus, ok_bind, evalTokens,
              evalToken]
            simp only [evalOp, floorDiv_of_lt (show 0 ≤ v ∧ v < modulus by omega), ok_bind,
              zero_mul,
              sub_zero, checkedOr_eq_ok.mpr (show FitsI64 0 ∧ (0 : Int) = 0 by decide),
              checkedOr_eq_ok.mpr ⟨hfits, rfl⟩, pure_eq, evalTokens]
          · cases hrest
        · split at hrest
          · rename_i index modulus hmodulus
            rw [decide_eq_true_eq] at hrest
            rw [evalTokens, evalToken_congr (by simp) (by simp) hmodulus, ok_bind, evalTokens,
              evalToken]
            simp only [evalOp, floorDiv_of_lt (show 0 ≤ v ∧ v < modulus by omega), ok_bind,
              zero_mul,
              sub_zero, checkedOr_eq_ok.mpr (show FitsI64 0 ∧ (0 : Int) = 0 by decide),
              checkedOr_eq_ok.mpr ⟨hfits, rfl⟩, pure_eq, evalTokens]
          · cases hrest
        · cases hrest
      · cases hrest
    · cases h
  · cases h

namespace Program.Sound

variable {program : Program} {plan : TypedRelocationPlan}

/-- Inside the result the walker's channels are the values of the channel maps. -/
theorem channelAt_eq_channelOf (h : program.Sound plan) {stage : StageArithmetic} {k : Nat}
    (hk : program.stages[k]? = some stage) {d : Int} (hd : 0 ≤ d ∧ d < program.resultElements)
    (hfits : FitsI64 program.resultElements) :
    channelAt program (coordsOf program.resultStrides d) stage k =
      channelOf program (coordsOf program.resultStrides d) stage k := by
  unfold channelAt channelOf
  by_cases hflag : stage.perChannel = true
  · rw [if_pos hflag, if_pos hflag]
    unfold selectChannel
    by_cases hdim : stage.channelIsDim = true
    · obtain ⟨declared, bound, -, hbound, -, -, hrun⟩ := h.each k stage hk
      obtain ⟨-, hbare, hchannel⟩ := prepareStage_eq_ok hrun
      cases hmap : bound.channel with
      | none =>
          rw [(hbare hmap).1] at hflag
          cases hflag
      | some channel =>
          have hdimension := (hchannel channel hmap).2.2.2.2
          rw [hdim] at hdimension
          obtain ⟨extent, hextent⟩ := channelDimension_dim hdimension.symm
          obtain ⟨stride, hstride, -, -⟩ := rowMajorStrides_getElem? h.extents.2 hextent
          have hprod := h.elements.1
          have hcoord := coordsOf_getElem? h.extents.2 (hprod ▸ hd) hextent hstride
          rw [← h.strides] at hcoord
          have hpos := h.extents.2 extent (List.mem_of_getElem? hextent)
          have hnonneg := Int.emod_nonneg (d / stride) (show extent ≠ 0 by omega)
          have hlt := Int.emod_lt_of_pos (d / stride) (show 0 < extent by omega)
          have hle : extent ≤ program.resultElements := by
            rw [hprod]
            exact le_prod_of_mem h.extents.2 (List.mem_of_getElem? hextent)
          have heval := evalChannel_of_dimension hdimension.symm hcoord hnonneg
            (fun other hother => by
              cases hextent.symm.trans hother
              exact hlt)
            (by
              unfold FitsI64 at hfits ⊢
              omega)
          rw [if_pos hdim, fetch_eq_ok.mpr hcoord, ok_bind, fetch_eq_ok.mpr hbound, ok_bind, hmap,
            Option.getD_some, heval]
          rfl
    · rw [if_neg hdim]
      cases hbound : (fetch program.plan.stages k : Outcome ExecutionError _) <;> rfl
  · rw [if_neg hflag, if_neg hflag]

theorem fits_elements (h : program.Sound plan) : FitsI64 program.resultElements := by
  have hone := h.laid.one_le_elements
  have htotal := h.laid.total
  have hfits := h.laid.fits
  have hsize := h.laid.size
  rw [← h.elements.2] at hone htotal
  have hle : program.resultElements * 1 ≤
      program.resultElements * program.plan.layout.elementSize :=
    mul_le_mul_of_nonneg_left (by exact_mod_cast hsize) (by omega)
  unfold FitsI64 at hfits ⊢
  omega

theorem applyRange_eq_stagesAt (h : program.Sound plan) {d : Int}
    (hd : 0 ≤ d ∧ d < program.resultElements) {range : List (StageArithmetic × Nat)}
    (hrange : ∀ entry ∈ range, program.stages[entry.2]? = some entry.1) (bits : Nat) :
    applyRange program (coordsOf program.resultStrides d) range bits =
      stagesAt program (coordsOf program.resultStrides d) range bits := by
  induction range generalizing bits with
  | nil => rfl
  | cons entry rest ih =>
      obtain ⟨stage, k⟩ := entry
      rw [List.forall_mem_cons] at hrange
      rw [applyRange, stagesAt, h.channelAt_eq_channelOf hrange.1 hd h.fits_elements]
      cases channelOf program (coordsOf program.resultStrides d) stage k with
      | ok channel => exact ih hrange.2 _
      | error reason => rfl
      | fault kind => rfl

end Program.Sound

/-! ### One unit of work -/

namespace HostCall

/-- What the kernel of a call makes of one element. -/
def step (call : HostCall) (offsets : Int × Int) : Outcome ExecutionError CellWrite :=
  if call.kernel = .generic then element call.state offsets.1 offsets.2
  else .ok (call.state.move offsets)

theorem element_cell {state : WalkState} {src dst : Int} {write : CellWrite}
    (h : element state src dst = .ok write) : write.cell = dst - state.origin := by
  simp only [element, bind_ok_iff, pure_eq, Outcome.ok.injEq] at h
  obtain ⟨_, -, rfl⟩ := h
  rfl

theorem plainElement_cell {state : WalkState} {offsets : Int × Int} {write : CellWrite}
    (h : plainElement state offsets = .ok write) : write.cell = offsets.2 - state.origin := by
  simp only [plainElement, bind_ok_iff, pure_eq, Outcome.ok.injEq] at h
  obtain ⟨_, -, rfl⟩ := h
  rfl

theorem step_cell {call : HostCall} {offsets : Int × Int} {write : CellWrite}
    (h : call.step offsets = .ok write) : write.cell = offsets.2 - call.state.origin := by
  unfold step at h
  split at h
  · exact element_cell h
  · cases h
    rfl

namespace Checked

variable {program : Program} {plan : TypedRelocationPlan} {fromStage toStage : Nat}
  {chunk : Option Chunk} {source : Memory Nat} {call : HostCall}

/-- Inside the result every kernel makes of an element what the plain walk does. -/
theorem step_eq_plain (hsound : program.Sound plan)
    (h : call.Checked program fromStage toStage chunk source) {offsets : Int × Int}
    (hinside : 0 ≤ offsets.2 ∧ offsets.2 < program.resultElements) :
    call.step offsets = plainElement call.state offsets := by
  have hplain : element call.state offsets.1 offsets.2 = plainElement call.state offsets := by
    rw [element, plainElement, h.program_eq.1, h.range_eq, hsound.applyRange_eq_stagesAt hinside
      (fun entry hentry => Program.mem_range hentry)]
  unfold step
  by_cases hkernel : call.kernel = .generic
  · rw [if_pos hkernel, hplain]
  · have hsimple := (h.buffered hsound hkernel).simple
    have hstages := hsimple.applyRange_eq (by rw [h.program_eq.1]; exact hsound.strides)
      (by rw [h.program_eq.1]; exact hsound.extents.2)
      (by rwa [h.program_eq.1, ← hsound.elements.1]) (call.state.loadBits offsets.1)
    rw [if_neg hkernel, ← hplain, element, hstages]
    rfl

/-- A unit of work is the same step on every element of its order. -/
theorem work_eq_mapEach (hsound : program.Sound plan)
    (h : call.Checked program fromStage toStage chunk source) (hwindow : 0 ≤ call.window.first)
    (aligned : Bool) {first last : Int} (hfirst : 0 ≤ first) (hle : first ≤ last) :
    call.work aligned first last = mapEach (call.order first last) call.step := by
  by_cases hkernel : call.kernel = .generic
  · have hstep : call.step = fun offsets => element call.state offsets.1 offsets.2 := by
      funext offsets
      rw [step, if_pos hkernel]
    have hmode : call.mode = genericMode := by
      rw [mode, hkernel]
      rfl
    unfold work order
    rw [hkernel, hstep]
    simp only [walkRows, hmode, walkElements_generic]
  · have hstep : call.step = fun offsets => .ok (call.state.move offsets) := by
      funext offsets
      rw [step, if_neg hkernel]
    rw [h.work_eq hsound hkernel hwindow aligned hfirst hle, hstep]
    exact (mapEach_of_ok fun _ _ => rfl).symm

end Checked

end HostCall

end SymReloc
