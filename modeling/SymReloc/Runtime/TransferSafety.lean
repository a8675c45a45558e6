import SymReloc.Runtime.Staging
import SymReloc.Runtime.TransferChecks

/-!
# Safety of an admitted transfer

`describeTransfer` never faults, and a request it accepts moves bytes inside the
declared allocations only.  One product is not covered by its checks: the source
footprint is tested as a `size_t`, while the gather computes the byte offset of an
element as a signed word.  A run is therefore safe exactly when the byte offset of
the last copy fits a signed word.
-/

namespace SymReloc

open Outcome

/-! ### The requirements of an accepted request -/

/-- What `describeTransfer` establishes. -/
structure TransferRequest.Described (request : TransferRequest) (r : TransferRequirements)
    (axis : WalkAxis) (axes : List WalkAxis) : Prop where
  admitted : request.bound.Admitted
  axes_eq : request.bound.walkAxes = axis :: axes
  row : FitsI64 (axis.dstStride * request.bound.elementSize)
  source : request.source.Spans r.sourceBytes
  reads : (request.bound.lastRead + 1) * request.bound.elementSize ≤ r.sourceBytes
  destination : ∃ bytes : Nat, request.destination.Spans bytes ∧ bytes = request.bound.totalBytes
  upload : request.direction = .hostToDevice → ∃ schedule, r.schedule = some schedule ∧
    schedule.Sound request.bound axis ∧ r.slotBytes = schedule.maxChunkBytes
  download : request.direction = .deviceToHost → r.schedule = none ∧ r.slotBytes = r.sourceBytes

section Describe

variable {request : TransferRequest} {axis : WalkAxis} {axes : List WalkAxis}

theorem sat_validateTransfer (hrequest : request.Machine) :
    (validateTransfer request.bound request.source request.destination request.direction).Sat
      fun sourceBytes => request.source.Spans sourceBytes ∧
        request.bound.ReadsFrom request.source sourceBytes ∧ ∃ bytes widened,
          request.destination.Spans bytes ∧
            request.bound.WritesTo request.destination bytes widened := by
  unfold validateTransfer checkKinds validateTransferSource checkSourceKind
  rw [bind_assoc, sat_require_bind]
  intro _
  rw [sat_require_bind]
  intro _
  rw [bind_assoc, sat_require_bind]
  intro _
  rw [bind_assoc, sat_bind]
  refine (sat_viewSpanBytes hrequest.source.extents _).mono fun sourceBytes hsource => ?_
  rw [bind_assoc, sat_bind]
  refine (sat_checkPlanAgainstSource hrequest.bound _ _).mono fun _ hreads => ?_
  rw [pure_eq, ok_bind, sat_bind]
  refine (sat_viewSpanBytes hrequest.destination.extents _).mono fun bytes hspans => ?_
  rw [sat_bind]
  refine (sat_checkPlanAgainstDestination hrequest.bound hreads.extents hspans.rank _).mono
    fun _ hwrites => ?_
  obtain ⟨widened, hwrites⟩ := hwrites
  exact ⟨hsource, hreads, bytes, widened, hspans, hwrites⟩

theorem sat_checkPhysical (bound : BoundPlan) (destination : BufferView) {padded : List Int}
    (hpadded : ∀ extent ∈ padded, FitsI64 extent) :
    (checkPhysical bound destination padded).Sat fun _ =>
      padded.prod * bound.elementSize = bound.totalBytes ∧ ∃ span : Nat,
        ({ destination with extents := padded, strides := bound.dstStrides } :
          BufferView).Spans span ∧ span = toSize bound.totalBytes := by
  unfold checkPhysical
  rw [sat_bind]
  refine (sat_elementCountOr _ _).mono fun count hcount => sat_checkedOr_bind fun _ => ?_
  rw [sat_require_bind]
  intro htotal
  rw [sat_bind]
  refine (sat_viewSpanBytes hpadded _).mono fun span hspan => sat_require fun heq => ?_
  exact ⟨hcount.2 ▸ htotal, span, hspan, heq⟩

theorem sat_checkRows (h : request.bound.Admitted)
    (haxes : request.bound.walkAxes = axis :: axes) :
    (checkRows request.bound (request.bound.walkAxes.map WalkAxis.padded)
      (axis.dstStride * request.bound.elementSize)).Sat fun _ =>
        Strides.reach (axes.map WalkAxis.target) + 1 ≤ axis.dstStride →
          axis.padded * (axis.dstStride * request.bound.elementSize) =
            request.bound.totalBytes := by
  unfold checkRows
  obtain ⟨hspan, hnext⟩ := innerSpan_eq (ε := TransferError) h haxes (padded_bounds h)
  rw [hspan, ok_bind, fetch_stride h haxes, ok_bind]
  refine sat_exact64_bind hnext (sat_ite (fun _ => ?_) fun hnot => ?_)
  · rw [haxes, List.map_cons]
    refine sat_fetch_bind (by simp) (sat_checkedOr_bind fun _ => sat_require fun hcovered _ => ?_)
    exact hcovered
  · exact fun hle => absurd hle hnot

theorem sat_describeStaging (h : request.bound.Admitted)
    (haxes : request.bound.walkAxes = axis :: axes)
    (hrow : FitsI64 (axis.dstStride * request.bound.elementSize)) {options : TransferOptions}
    (hbuffers : options.nBuffers < 2 ^ 31) (sourceBytes : Nat) :
    (describeStaging request options (request.bound.walkAxes.map WalkAxis.padded)
      (axis.dstStride * request.bound.elementSize) sourceBytes).Sat fun staging =>
        (request.direction = .hostToDevice → ∃ schedule, staging.1 = some schedule ∧
          schedule.Sound request.bound axis ∧ staging.2.2 = schedule.maxChunkBytes) ∧
        (request.direction = .deviceToHost → staging.1 = none ∧ staging.2.2 = sourceBytes) := by
  unfold describeStaging
  cases request.direction with
  | hostToDevice =>
      simp only
      rw [sat_bind]
      refine (sat_checkRows h haxes).mono fun _ hcovered => ?_
      rw [sat_bind]
      refine (sat_planChunks h haxes hrow (by omega) _ hcovered).mono fun schedule hschedule => ?_
      rw [pure_eq, sat_ok]
      exact ⟨fun _ => ⟨schedule, rfl, hschedule, rfl⟩, by simp⟩
  | deviceToHost => exact ⟨by simp, fun _ => ⟨rfl, rfl⟩⟩

/-- `describeTransfer` does not fault on machine values. -/
theorem sat_describeTransfer (hrequest : request.Machine) {options : TransferOptions}
    (hbuffers : options.nBuffers < 2 ^ 31) (hardwareThreads : Nat) :
    (describeTransfer hardwareThreads request options).Sat fun r =>
      ∃ axis axes, request.Described r axis axes := by
  unfold describeTransfer
  rw [sat_require_bind]
  intro _
  rw [sat_bind]
  refine (sat_validateTransfer hrequest).mono fun sourceBytes hvalid => ?_
  obtain ⟨hsource, hreads, bytes, widened, hspans, hwrites⟩ := hvalid
  rw [sat_require_bind]
  intro _
  have hpos : 0 < request.bound.dstStrides.length := by
    rw [hreads.dstRank]
    exact List.length_pos_iff.mpr hreads.rank
  refine sat_fetch_bind hpos (sat_checkedOr_bind fun hrow => ?_)
  rw [sat_bind]
  refine (sat_admitPads hwrites.widens []).mono fun padded hpads => ?_
  obtain ⟨rfl, hnodup, hpads⟩ := hpads
  rw [sat_bind]
  refine (sat_checkPhysical _ _ hwrites.fits).mono fun _ hphysical => ?_
  obtain ⟨hcells, span, hspan, hspanEq⟩ := hphysical
  have h := hreads.admitted hwrites hrequest.bound hnodup
    (fun region hmem => (hpads region hmem).2.1)
    hcells hspan hspanEq
  obtain ⟨axis, axes, haxes⟩ := h.exists_cons
  have hstride := fetch_eq_ok.mp (fetch_stride (ε := Unit) h haxes)
  obtain ⟨_, hvalue⟩ := List.getElem?_eq_some_iff.mp hstride
  rw [hvalue] at hrow ⊢
  rw [widened_eq hreads.srcRank hreads.dstRank hwrites.widens hnodup, sat_bind]
  refine (sat_describeStaging h haxes hrow hbuffers sourceBytes).mono fun staging hstaging => ?_
  rw [sat_require_bind]
  intro _
  refine sat_checkedSizeOr_bind fun _ => ?_
  have htotal := toSize_of_nonneg hwrites.total_pos.le hrequest.bound.total
  exact ⟨axis, axes, h, haxes, hrow, hsource, sourceReach_eq hreads,
    ⟨bytes, hspans, by rw [hwrites.total_eq, htotal]⟩, hstaging.1, hstaging.2⟩

end Describe

/-! ### Safe runs -/

/-- The copies run, from bytes below `sourceBytes` to bytes below `bytes`. -/
def CopiesWithin (run : Outcome Unit (List ByteCopy)) (sourceBytes bytes : Nat) : Prop :=
  ∃ copies, run = .ok copies ∧ ∀ d s, Moves copies d s →
    (0 ≤ d ∧ d < bytes) ∧ (0 ≤ s ∧ s < sourceBytes)

/-- Every run of an accepted request is safe: its address arithmetic does not
    overflow, its reads and writes lie inside the declared allocations, the padded
    index space numbers the destination cells, and the windows of the schedule tile
    the destination with no chunk larger than a slot. -/
structure TransferSafe (request : TransferRequest) (r : TransferRequirements) : Prop where
  numbers : Set.BijOn (Strides.offset request.bound.targetAxes)
    {coords | Strides.InBox request.bound.targetAxes coords}
    (Set.Ico 0 (request.bound.totalBytes / request.bound.elementSize))
  source : request.source.offsetBytes + r.sourceBytes ≤ request.source.capacityBytes
  destination : request.destination.offsetBytes + request.bound.totalBytes ≤
    request.destination.capacityBytes
  tiles : ∀ schedule, r.schedule = some schedule →
    (∀ d, 0 ≤ d → d < request.bound.totalBytes →
      ∃! k : Nat, ∃ chunk, schedule.chunks[k]? = some chunk ∧ chunk.Holds d) ∧
    ∀ chunk ∈ schedule.chunks, 0 ≤ chunk.byteOffset ∧
      chunk.byteOffset + chunk.bytes ≤ request.bound.totalBytes ∧ chunk.bytes ≤ r.slotBytes
  /-- Host to device: each chunk is built inside its slot, however its rows are divided. -/
  upload : request.direction = .hostToDevice → ∀ schedule, r.schedule = some schedule →
    ∀ chunk ∈ schedule.chunks, ∀ parts, Partition chunk.validBegin parts chunk.validEnd →
      CopiesWithin ((fillStagingWindow request.bound chunk.bytes).bind fun fill => .ok fill.2)
        8 chunk.bytes ∧
      CopiesWithin (chunkCopies request.bound chunk parts) r.sourceBytes chunk.bytes
  /-- Device to host: the source span fits the slot, and is gathered from there. -/
  download : request.direction = .deviceToHost → r.sourceBytes ≤ r.slotBytes ∧
    ∀ outer, fetch request.bound.extents 0 = (.ok outer : Outcome Unit Int) →
      ∀ parts, Partition 0 parts outer →
        CopiesWithin ((forwardHostGather request.bound parts).bind fun run => .ok run.1.2)
          8 (toSize request.bound.totalBytes) ∧
        CopiesWithin ((forwardHostGather request.bound parts).bind fun run => .ok run.2)
          r.slotBytes (toSize request.bound.totalBytes)

section Safe

variable {request : TransferRequest} {r : TransferRequirements} {axis : WalkAxis}
  {axes : List WalkAxis}

theorem fills_within {bound : BoundPlan} (h : bound.Admitted) {total d s : Int}
    (hmoves : bound.padRegions ≠ [] ∧ Fills bound.elementSize total d s) :
    (0 ≤ d ∧ d < total) ∧ (0 ≤ s ∧ s < 8) := by
  obtain ⟨hpads, hd, rfl⟩ := hmoves
  obtain ⟨region, hregion⟩ := List.exists_mem_of_ne_nil _ hpads
  have hes : (0 : Int) < bound.elementSize := by exact_mod_cast h.size_pos
  have hlt := Int.emod_lt_of_pos d hes
  have hle := h.pattern region hregion
  exact ⟨hd, Int.emod_nonneg d hes.ne', by omega⟩

/-- The host gather fills the destination and gathers rows in one or several ranges. -/
theorem exists_forwardHostGather {bound : BoundPlan} (h : bound.Admitted)
    (haxes : bound.walkAxes = axis :: axes)
    (hrow : FitsI64 (axis.dstStride * bound.elementSize)) :
    ∃ (fill : Nat × List ByteCopy) (span : Int), (∀ d s, Moves fill.2 d s ↔
        bound.padRegions ≠ [] ∧ Fills bound.elementSize bound.totalBytes d s) ∧
      ∀ parts, (forwardHostGather bound parts : Outcome Unit _) =
        (gatherParts bound (if span + 1 ≤ axis.dstStride then parts else [(0, axis.extent)])).bind
          fun copies => .ok (fill, copies) := by
  obtain ⟨fill, hfill, -, hmoves⟩ := exists_fillDst (ε := Unit) h
  have hextents := (BoundPlan.map_walkAxes h.srcRank h.dstRank).1
  obtain ⟨hspan, hnext⟩ := innerSpan_eq (ε := Unit) h haxes (f := WalkAxis.extent) fun a ha => by
    obtain ⟨hextent, hlo, hhi⟩ := h.padded a ha
    unfold WalkAxis.padded
    omega
  rw [hextents] at hspan
  refine ⟨fill, Strides.reach (axes.map fun a => ⟨a.extent, a.dstStride⟩), hmoves,
    fun parts => ?_⟩
  rw [forwardHostGather, hfill, ok_bind, hspan, ok_bind, fetch_stride h haxes, ok_bind, add64,
    exact64_of_fits hnext, ok_bind, h.fetch_outer haxes, ok_bind, mul64, exact64_of_fits hrow,
    ok_bind]
  rfl

theorem copiesWithin_ok {copies : List ByteCopy} {sourceBytes bytes : Nat} :
    CopiesWithin (.ok copies) sourceBytes bytes ↔ ∀ d s, Moves copies d s →
      (0 ≤ d ∧ d < bytes) ∧ (0 ≤ s ∧ s < sourceBytes) := by
  constructor
  · rintro ⟨_, ⟨⟩, h⟩
    exact h
  · intro h
    exact ⟨copies, rfl, h⟩

/-- With the last copy in range every run is safe. -/
theorem TransferRequest.Described.safe (h : request.Described r axis axes)
    (hlast : InBytes request.bound.elementSize request.bound.lastCopy) :
    TransferSafe request r := by
  have hadmitted := h.admitted
  have hes : (0 : Int) < request.bound.elementSize := by exact_mod_cast hadmitted.size_pos
  have htotal0 : 0 ≤ request.bound.totalBytes := by
    rw [hadmitted.total]
    exact mul_nonneg hadmitted.cells_inBytes.1 hes.le
  have htotal := toSize_of_nonneg htotal0 hadmitted.fits
  obtain ⟨bytes, hdestination, hbytes⟩ := h.destination
  have hsound : ∀ schedule, r.schedule = some schedule →
      schedule.Sound request.bound axis ∧ r.slotBytes = schedule.maxChunkBytes := by
    intro schedule hschedule
    cases hdirection : request.direction with
    | hostToDevice =>
        obtain ⟨schedule', hschedule', hall⟩ := h.upload hdirection
        obtain rfl := Option.some.inj (hschedule.symm.trans hschedule')
        exact hall
    | deviceToHost =>
        rw [(h.download hdirection).1] at hschedule
        cases hschedule
  refine ⟨?_, h.source.inside, ?_, ?_, ?_, ?_⟩
  · have hcells : request.bound.totalBytes / request.bound.elementSize = request.bound.cells := by
      rw [hadmitted.total]
      exact Int.mul_ediv_cancel _ hes.ne'
    rw [hcells]
    exact hadmitted.bijOn_offset
  · have hinside := hdestination.inside
    omega
  · intro schedule hschedule
    obtain ⟨hall, hslot⟩ := hsound schedule hschedule
    refine ⟨fun d hd hlt => hall.tiles.existsUnique ⟨hd, hlt⟩, fun chunk hmem => ?_⟩
    have hwindow := hall.tiles.bounds hmem
    exact ⟨hwindow.1, hwindow.2, hslot ▸ hall.size chunk hmem⟩
  · intro _ schedule hschedule chunk hmem parts hparts
    obtain ⟨hall, -⟩ := hsound schedule hschedule
    have hchunk := hall.chunks chunk hmem
    have hwindow := hall.tiles.bounds hmem
    have hoffset : chunk.byteOffset ≤ request.bound.totalBytes := by omega
    constructor
    · obtain ⟨count, hcount⟩ := hchunk.whole
      have hinside : (count * request.bound.elementSize : Nat) ≤ request.bound.totalBytes := by
        omega
      obtain ⟨fill, hfill, -, hmoves⟩ := exists_fillStagingWindow (ε := Unit) hadmitted hinside
      rw [hcount, hfill]
      refine copiesWithin_ok.mpr fun d s hm => ?_
      exact fills_within hadmitted ((hmoves d s).mp hm)
    · obtain ⟨copies, hcopies⟩ := exists_chunkCopies (ε := Unit) hchunk hadmitted h.axes_eq h.row
        hoffset hparts hlast
      rw [hcopies]
      refine copiesWithin_ok.mpr fun d s hm => ?_
      rw [moves_chunkCopies hchunk hadmitted h.axes_eq h.row hoffset hparts hcopies] at hm
      have hholds := hchunk.gathers_holds hadmitted h.axes_eq hm
      have hbounds := hadmitted.gathers_bounds hm
      have hreads := h.reads
      unfold Chunk.Holds at hholds
      omega
  · intro hdirection
    have hslot := (h.download hdirection).2
    refine ⟨hslot.ge, fun outer houter parts hparts => ?_⟩
    have houterEq : axis.extent = outer := by
      have := hadmitted.fetch_outer (ε := Unit) h.axes_eq
      rw [houter] at this
      cases this
      rfl
    subst houterEq
    have hextent := hadmitted.padded axis (by rw [h.axes_eq]; simp)
    obtain ⟨fill, span, hfill, hrun⟩ := exists_forwardHostGather hadmitted h.axes_eq h.row
    have hrows : Partition 0 (if span + 1 ≤ axis.dstStride then parts else [(0, axis.extent)])
        axis.extent := by
      split
      · exact hparts
      · exact partition_single (by omega)
    obtain ⟨copies, hcopies⟩ := exists_gatherParts (ε := Unit) hadmitted h.axes_eq (le_refl 0)
      hrows (le_refl _) hlast
    rw [hrun, hcopies]
    constructor
    · refine copiesWithin_ok.mpr fun d s hm => ?_
      rw [htotal]
      exact fills_within hadmitted ((hfill d s).mp hm)
    · refine copiesWithin_ok.mpr fun d s hm => ?_
      rw [hadmitted.moves_gatherParts h.axes_eq (le_refl 0) hrows (le_refl _) hcopies] at hm
      have hbounds := hadmitted.gathers_bounds hm
      have hreads := h.reads
      omega

/-- A safe run computes the byte offset of the last copy. -/
theorem TransferRequest.Described.lastCopy_of_safe (h : request.Described r axis axes)
    (hsafe : TransferSafe request r) :
    InBytes request.bound.elementSize request.bound.lastCopy := by
  have hadmitted := h.admitted
  have hextent := hadmitted.padded axis (by rw [h.axes_eq]; simp)
  cases hdirection : request.direction with
  | hostToDevice =>
      obtain ⟨schedule, hschedule, hall, -⟩ := h.upload hdirection
      -- the chunk that holds the last valid cell
      have hvalid := hadmitted.valid_last
      have hbox := hvalid.inBox_target hadmitted.padded
      have hcell := hadmitted.dstOffset_mem hvalid
      have hes : (0 : Int) < request.bound.elementSize := by exact_mod_cast hadmitted.size_pos
      have hd0 : 0 ≤ dstOffset request.bound.walkAxes (lastValid request.bound.walkAxes) *
          request.bound.elementSize := mul_nonneg hcell.1 hes.le
      have hd : dstOffset request.bound.walkAxes (lastValid request.bound.walkAxes) *
          request.bound.elementSize < request.bound.totalBytes := by
        rw [hadmitted.total]
        exact mul_lt_mul_of_pos_right hcell.2 hes
      obtain ⟨k, ⟨chunk, hchunk, hholds⟩, -⟩ := hall.tiles.existsUnique ⟨hd0, hd⟩
      have hmem := List.mem_of_getElem? hchunk
      have hsound := hall.chunks chunk hmem
      rw [dstOffset_eq, ← add_zero (_ * _)] at hholds
      have hrow := (hsound.owns _ 0 hbox (le_refl 0) hes).mp hholds
      have hhead : (shift request.bound.walkAxes (lastValid request.bound.walkAxes)).headI =
          axis.extent - 1 + axis.lo := by
        rw [h.axes_eq]
        rfl
      rw [hhead] at hrow
      have hlast := (hsound.rows (axis.extent - 1)).mpr ⟨by omega, hrow⟩
      have hrange := hsound.valid
      have hend : chunk.validEnd = axis.extent := by omega
      obtain ⟨-, copies, hcopies, -⟩ := hsafe.upload hdirection schedule hschedule chunk hmem _
        (partition_single (show chunk.validBegin < chunk.validEnd by omega))
      rw [chunkCopies, if_pos (by omega), rebase_eq hsound hadmitted h.axes_eq h.row
        (by have := hall.tiles.bounds hmem; omega), ok_bind] at hcopies
      obtain ⟨gathered, hgathered, -⟩ := bind_ok_iff.mp hcopies
      rw [hend] at hgathered
      exact lastCopy_of_gatherParts hadmitted h.axes_eq hrange.1 (by omega) hgathered
  | deviceToHost =>
      obtain ⟨-, hrun⟩ := hsafe.download hdirection
      obtain ⟨-, copies, hcopies, -⟩ := hrun axis.extent (hadmitted.fetch_outer h.axes_eq) _
        (partition_single (show 0 < axis.extent by omega))
      obtain ⟨fill, span, -, hgather⟩ := exists_forwardHostGather hadmitted h.axes_eq h.row
      rw [hgather, ite_self] at hcopies
      cases hparts : (gatherParts request.bound [(0, axis.extent)] : Outcome Unit _) with
      | ok gathered =>
          exact lastCopy_of_gatherParts hadmitted h.axes_eq (le_refl 0) (by omega) hparts
      | error reason =>
          rw [hparts] at hcopies
          cases hcopies
      | fault kind =>
          rw [hparts] at hcopies
          cases hcopies

end Safe

/-! ### The exact condition -/

/-- The validator does not fault; an accepted request runs safely exactly when the byte
    offset of its last copy fits a signed word. -/
theorem describeTransfer_safe_iff (hardwareThreads : Nat) (request : TransferRequest)
    (options : TransferOptions) (hrequest : request.Machine)
    (hbuffers : options.nBuffers < 2 ^ 31) :
    (describeTransfer hardwareThreads request options).Safe ∧
      ∀ r, describeTransfer hardwareThreads request options = .ok r →
        (TransferSafe request r ↔
          request.bound.lastCopy * request.bound.elementSize < 2 ^ 63) := by
  have hsat := sat_describeTransfer hrequest hbuffers hardwareThreads
  refine ⟨hsat.safe, fun r hr => ?_⟩
  obtain ⟨axis, axes, hdescribed⟩ := hsat.of_ok hr
  have hpos : 0 ≤ request.bound.lastCopy :=
    lastStart_nonneg hdescribed.admitted.walkable (le_refl 0)
  constructor
  · intro hsafe
    exact (hdescribed.lastCopy_of_safe hsafe).2
  · intro hlast
    exact hdescribed.safe ⟨hpos, hlast⟩

/-! ### Two cells at a distance -/

/-- Two 16-bit cells, `stride` cells apart in the source. -/
def stridedPair (stride : Int) : TransferRequest where
  bound :=
    { extents := [2], srcStrides := [stride], dstStrides := [1], perm := [0], padRegions := [],
      elementSize := 2, totalBytes := 4, noCopy := false, typed := false,
      strategy := .singleThreadSimd, L := 1, requiredAlignments := [] }
  source :=
    { base := 1, capacityBytes := 2 ^ 64 - 1, offsetBytes := 0, extents := [2],
      strides := [stride], elementSize := 2, kind := .host, device := -1 }
  destination :=
    { base := 1, capacityBytes := 4, offsetBytes := 0, extents := [2], strides := [1],
      elementSize := 2, kind := .host, device := -1 }
  direction := .hostToDevice
  consumed := false

def serialGather : TransferOptions where
  nBuffers := 2
  chunkSizeOverride := 0
  gatherThreads := 1
  gather := none

def pairRequirements (sourceBytes : Nat) : TransferRequirements where
  schedule := some
    { chunks := [⟨0, 2, 0, 2, 0, 4⟩], maxChunkBytes := 4, outerLo := 0, rowBytes := 2,
      serialized := false }
  sourceBytes := sourceBytes
  slotBytes := 4
  stagingBytes := 4
  activeSlots := 1
  gatherThreads := 1

theorem stridedPair_machine (stride : Int) : (stridedPair stride).Machine := by
  have htwo : ∀ extent ∈ [(2 : Int)], FitsI64 extent := by decide
  exact ⟨⟨htwo, by norm_num [stridedPair], by unfold stridedPair FitsI64; norm_num⟩,
    ⟨htwo, by norm_num [stridedPair]⟩, ⟨htwo, by norm_num [stridedPair]⟩⟩

/-- Three cells apart the run is safe. -/
theorem describeTransfer_near :
    describeTransfer 1 (stridedPair 3) serialGather = .ok (pairRequirements 8) ∧
      TransferSafe (stridedPair 3) (pairRequirements 8) := by
  have hok : describeTransfer 1 (stridedPair 3) serialGather = .ok (pairRequirements 8) := by
    decide +kernel
  have hiff := (describeTransfer_safe_iff 1 (stridedPair 3) serialGather
    (stridedPair_machine 3) (by decide)).2 _ hok
  exact ⟨hok, hiff.mpr (by decide)⟩

/-- `2 ^ 62` cells apart the request is accepted, and the gather overflows. -/
theorem describeTransfer_far :
    describeTransfer 1 (stridedPair (2 ^ 62)) serialGather =
        .ok (pairRequirements (2 ^ 63 + 2)) ∧
      ¬ TransferSafe (stridedPair (2 ^ 62)) (pairRequirements (2 ^ 63 + 2)) := by
  constructor
  · decide +kernel
  · intro h
    obtain ⟨-, copies, hcopies, -⟩ := h.upload rfl _ rfl _ (List.mem_singleton_self _) [(0, 2)]
      (partition_single (by decide))
    have hfault : (chunkCopies (stridedPair (2 ^ 62)).bound ⟨0, 2, 0, 2, 0, 4⟩ [(0, 2)] :
        Outcome Unit (List ByteCopy)) = .fault .signedOverflow := by decide +kernel
    rw [hfault] at hcopies
    cases hcopies

end SymReloc
