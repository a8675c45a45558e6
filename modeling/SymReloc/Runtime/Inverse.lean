import SymReloc.Runtime.Relocated
import SymReloc.Runtime.StrideTests
import SymReloc.Runtime.TransferSafety

/-!
# The inverse of a relocation

`executeD2H` scatters a buffer in the destination layout back into the source: the copies of the
strided walk, the other way.  It reconstructs what `executeH2D` has read, and leaves what no
element of the source lies in.
-/

namespace SymReloc

open Outcome

section Code

variable {ε : Type}

/-- `scatterRun1D`: `copyRun1D`, reading the destination and writing the source. -/
def scatterRun1D (es : Nat) (axis : WalkAxis) (srcOff dstOff iBegin iEnd : Int) :
    Outcome ε (List ByteCopy) :=
  if axis.srcStride = 1 ∧ axis.dstStride = 1 then do
    let at1 ← add64 srcOff iBegin
    let dst ← mul64 at1 es
    let at2 ← add64 dstOff iBegin
    let at2 ← add64 at2 axis.lo
    let src ← mul64 at2 es
    let count ← sub64 iEnd iBegin
    let bytes ← exactSize (toSize count * es)
    pure [{ dst, src, bytes }]
  else
    mapEach (intRange iBegin iEnd) fun i => do
      let step ← mul64 i axis.srcStride
      let cell ← add64 srcOff step
      let dst ← mul64 cell es
      let j ← add64 i axis.lo
      let step ← mul64 j axis.dstStride
      let cell ← add64 dstOff step
      let src ← mul64 cell es
      pure { dst, src, bytes := es }

/-- `scatterWalk`: `walk`, scattering. -/
def scatterWalk (es : Nat) : List WalkAxis → Int → Int → Int → Int → Outcome ε (List ByteCopy)
  | [], _, _, _, _ => .ok []
  | [axis], iBegin, iEnd, srcOff, dstOff => scatterRun1D es axis srcOff dstOff iBegin iEnd
  | axis :: next :: rest, iBegin, iEnd, srcOff, dstOff => do
      let runs ← mapEach (intRange iBegin iEnd) fun i => do
        let step ← mul64 i axis.srcStride
        let src ← add64 srcOff step
        let j ← add64 i axis.lo
        let step ← mul64 j axis.dstStride
        let dst ← add64 dstOff step
        scatterWalk es (next :: rest) 0 next.extent src dst
      pure runs.flatten

def scatterChunk (bound : BoundPlan) (outerBegin outerEnd : Int) : Outcome ε (List ByteCopy) :=
  scatterWalk bound.elementSize bound.walkAxes outerBegin outerEnd 0 0

/-- `executeD2H`: the source that it leaves. -/
def executeD2H (bound : BoundPlan) (buffer memory : Memory UInt8) :
    Outcome ε (Memory UInt8) := do
  let outer ← fetch bound.extents 0
  let copies ← scatterChunk bound 0 outer
  pure (runCopies buffer copies memory)

/-- `relocateInverseHost`, of the buffers without the gather arguments. -/
def relocateInverseHost (bound : BoundPlan) (buffers : HostBuffers)
    (buffer memory : Memory UInt8) : Outcome String (Memory UInt8) := do
  rejectTypedLayout bound "relocate_inverse"
  checkBuffer "dst" buffers.dstPtr buffers.dstBytes (toSize bound.totalBytes)
  let srcBytes ← minSrcBytes bound
  checkBuffer "src(out)" buffers.srcPtr buffers.srcBytes srcBytes
  executeD2H bound buffer memory

end Code

variable {ε : Type} {bound : BoundPlan} {axis : WalkAxis} {axes : List WalkAxis} {es : Nat}
  {iBegin iEnd srcOff dstOff d s : Int} {copies : List ByteCopy}
  {source memory uploaded host : Memory UInt8}

/-! ### Copies the other way -/

def ByteCopy.swap (copy : ByteCopy) : ByteCopy :=
  { dst := copy.src, src := copy.dst, bytes := copy.bytes }

theorem moves_swap : Moves (copies.map ByteCopy.swap) s d ↔ Moves copies d s := by
  rw [moves_map]
  constructor
  · rintro ⟨copy, hmem, j, hlo, hhi, hs, hd⟩
    exact ⟨copy, hmem, j, hlo, hhi, hd, hs⟩
  · rintro ⟨copy, hmem, j, hlo, hhi, hd, hs⟩
    exact ⟨copy, hmem, j, hlo, hhi, hs, hd⟩

/-- A byte that is written, from sources that hold one value each time. -/
theorem runCopies_of_agree {β : Type} {source memory : Memory β} {value : β}
    (hagree : ∀ s, Moves copies d s → source s = value) (h : ∃ s, Moves copies d s) :
    runCopies source copies memory d = value := by
  induction copies generalizing memory with
  | nil => exact h.elim fun _ hs => absurd hs moves_nil
  | cons copy copies ih =>
      by_cases hlater : ∃ s, Moves copies d s
      · exact ih (fun s hs => hagree s (moves_cons.mpr (.inr hs))) hlater
      · obtain ⟨s, hs⟩ := h
        rw [not_exists] at hlater
        have hcopy := (moves_cons.mp hs).resolve_right (hlater s)
        exact (runCopies_of_not_moves hlater).trans
          ((ByteCopy.run_of_moves hcopy).trans (hagree s hs))

theorem ok_map_of_mapEach {α β γ : Type} {values : List α} {body : α → Outcome ε β}
    {body' : α → Outcome ε γ} {f : β → γ} {results : List β}
    (hrun : mapEach values body = .ok results)
    (hbody : ∀ value result, body value = .ok result → body' value = .ok (f result)) :
    mapEach values body' = .ok (results.map f) := by
  rw [mapEach_eq_ok] at hrun ⊢
  rw [List.forall₂_map_right_iff]
  exact hrun.imp hbody

/-- The scatter of a run is its copies the other way. -/
theorem scatterRun1D_of_copyRun1D
    (hrun : copyRun1D es axis srcOff dstOff iBegin iEnd = (.ok copies : Outcome ε _)) :
    scatterRun1D es axis srcOff dstOff iBegin iEnd =
      (.ok (copies.map ByteCopy.swap) : Outcome ε _) := by
  unfold copyRun1D at hrun
  unfold scatterRun1D
  by_cases hone : axis.srcStride = 1 ∧ axis.dstStride = 1
  · rw [if_pos hone] at hrun ⊢
    simp only [bind_ok_iff, add64_eq_ok, mul64_eq_ok, sub64_eq_ok, exactSize_eq_ok] at hrun ⊢
    obtain ⟨_, ⟨hcell, rfl⟩, _, ⟨hlo, rfl⟩, _, ⟨hdst, rfl⟩, _, ⟨hread, rfl⟩, _, ⟨hsrc, rfl⟩, _,
      ⟨hcount, rfl⟩, _, ⟨hbytes, rfl⟩, ⟨⟩⟩ := hrun
    exact ⟨_, ⟨hread, rfl⟩, _, ⟨hsrc, rfl⟩, _, ⟨hcell, rfl⟩, _, ⟨hlo, rfl⟩, _, ⟨hdst, rfl⟩, _,
      ⟨hcount, rfl⟩, _, ⟨hbytes, rfl⟩, rfl⟩
  · rw [if_neg hone] at hrun ⊢
    refine ok_map_of_mapEach hrun fun i copy hcopy => ?_
    simp only [bind_ok_iff, add64_eq_ok, mul64_eq_ok] at hcopy ⊢
    obtain ⟨_, ⟨hj, rfl⟩, _, ⟨hstep, rfl⟩, _, ⟨hcell, rfl⟩, _, ⟨hdst, rfl⟩, _, ⟨hstep', rfl⟩, _,
      ⟨hcell', rfl⟩, _, ⟨hsrc, rfl⟩, ⟨⟩⟩ := hcopy
    exact ⟨_, ⟨hstep', rfl⟩, _, ⟨hcell', rfl⟩, _, ⟨hsrc, rfl⟩, _, ⟨hj, rfl⟩, _, ⟨hstep, rfl⟩, _,
      ⟨hcell, rfl⟩, _, ⟨hdst, rfl⟩, rfl⟩

/-- So is the scatter of a walk. -/
theorem scatterWalk_of_walk
    (hrun : walk es axes iBegin iEnd srcOff dstOff = (.ok copies : Outcome ε _)) :
    scatterWalk es axes iBegin iEnd srcOff dstOff =
      (.ok (copies.map ByteCopy.swap) : Outcome ε _) := by
  induction axes generalizing iBegin iEnd srcOff dstOff copies with
  | nil =>
      cases hrun
      rfl
  | cons axis axes ih =>
      cases axes with
      | nil => exact scatterRun1D_of_copyRun1D hrun
      | cons next rest =>
          simp only [walk, bind_ok_iff, pure_eq, Outcome.ok.injEq] at hrun
          obtain ⟨runs, hruns, rfl⟩ := hrun
          simp only [scatterWalk, bind_ok_iff, pure_eq, Outcome.ok.injEq]
          refine ⟨runs.map (List.map ByteCopy.swap), ok_map_of_mapEach hruns fun i run hbody => ?_,
            List.map_flatten.symm⟩
          simp only [bind_ok_iff] at hbody ⊢
          obtain ⟨step, hstep, src, hsrc, j, hj, step', hstep', dst, hdst, hrest⟩ := hbody
          exact ⟨step, hstep, src, hsrc, j, hj, step', hstep', dst, hdst, ih hrest⟩

/-! ### Round trip -/

/-- The byte of the source belongs to an element that the plan reads. -/
def BoundPlan.Reads (bound : BoundPlan) (s : Int) : Prop :=
  ∃ (index : List Int) (j : Int), Valid bound.walkAxes index ∧ 0 ≤ j ∧ j < bound.elementSize ∧
    s = srcOffset bound.walkAxes index * bound.elementSize + j

/-- The byte of the destination belongs to a cell that an element of the source goes to. -/
def BoundPlan.Writes (bound : BoundPlan) (d : Int) : Prop :=
  ∃ (index : List Int) (j : Int), Valid bound.walkAxes index ∧ 0 ≤ j ∧ j < bound.elementSize ∧
    d = dstOffset bound.walkAxes index * bound.elementSize + j

/-- An upload of what was scattered from a buffer gives the cells of the buffer back. -/
def BoundPlan.Restores (bound : BoundPlan) : Prop :=
  ∀ buffer memory memory' host uploaded,
    executeD2H bound buffer memory = (.ok host : Outcome String _) →
    executeH2D bound host memory' = (.ok uploaded : Outcome String _) →
      ∀ d, bound.Writes d → uploaded d = buffer d

/-- An element goes from its cell in the source to its cell in the destination. -/
theorem BoundPlan.gathers_element (haxes : bound.walkAxes = axis :: axes) {index : List Int}
    (hvalid : Valid bound.walkAxes index) {j : Int} (hj : 0 ≤ j ∧ j < bound.elementSize) :
    Gathers bound.elementSize bound.walkAxes 0 axis.extent 0 0
      (dstOffset bound.walkAxes index * bound.elementSize + j)
      (srcOffset bound.walkAxes index * bound.elementSize + j) := by
  have hhead : 0 ≤ index.headI ∧ index.headI < axis.extent := by
    rw [haxes] at hvalid
    obtain _ | ⟨hi, -⟩ := hvalid
    exact hi
  exact ⟨index, j, hvalid, hhead.1, hhead.2, hj.1, hj.2, by rw [zero_add], by rw [zero_add]⟩

theorem BoundPlan.reads_iff (haxes : bound.walkAxes = axis :: axes) :
    bound.Reads s ↔ ∃ d, Gathers bound.elementSize bound.walkAxes 0 axis.extent 0 0 d s := by
  constructor
  · rintro ⟨index, j, hvalid, hj, hlt, rfl⟩
    exact ⟨_, BoundPlan.gathers_element haxes hvalid ⟨hj, hlt⟩⟩
  · rintro ⟨d, index, j, hvalid, -, -, hj, hlt, -, hs⟩
    exact ⟨index, j, hvalid, hj, hlt, by rw [hs, zero_add]⟩

namespace BoundPlan.Admitted

/-- The scatter of an admitted plan. -/
theorem executeD2H_eq (h : bound.Admitted) (haxes : bound.walkAxes = axis :: axes)
    (hlast : InBytes bound.elementSize bound.lastCopy) :
    ∃ copies, (∀ d s, Moves copies s d ↔
        Gathers bound.elementSize bound.walkAxes 0 axis.extent 0 0 d s) ∧
      ∀ buffer memory, (executeD2H bound buffer memory : Outcome ε _) =
        .ok (runCopies buffer copies memory) := by
  have hextent := (h.padded axis (by rw [haxes]; exact List.mem_cons_self)).1
  have hwalkable := h.walkable
  have hwrite := h.dstOffset_mem h.valid_last
  have hcells := h.cells_inBytes
  have hfetch := h.fetch_outer (ε := ε) haxes
  rw [BoundPlan.lastCopy] at hlast
  rw [haxes] at hwalkable hlast hwrite
  obtain ⟨copies, hcopies⟩ := exists_walk (ε := ε) ⟨h.size_pos, h.size_lt⟩ hwalkable (le_refl 0)
    (show 0 < axis.extent by omega) (le_refl _) (le_refl 0) (le_refl 0)
    (by rwa [zero_add]) (hcells.mono (by omega) (by omega))
  refine ⟨copies.map ByteCopy.swap, fun d s => ?_, fun buffer memory => ?_⟩
  · have hextents : ∀ a ∈ axis :: axes, 1 ≤ a.extent := fun a ha => (hwalkable a ha).1
    rw [moves_swap, eq_walkTrace hextents (by omega) hcopies, haxes]
    exact moves_walkTrace h.size_pos (le_refl 0) (le_refl _)
  · unfold executeD2H scatterChunk
    rw [hfetch, ok_bind, haxes, scatterWalk_of_walk hcopies, ok_bind, pure_eq]

/-- An upload runs when the byte offset of the last copy can be computed, and only then. -/
theorem exists_executeH2D_iff (h : bound.Admitted) (haxes : bound.walkAxes = axis :: axes)
    (source memory : Memory UInt8) :
    (∃ uploaded, executeH2D bound source memory = (.ok uploaded : Outcome ε _)) ↔
      InBytes bound.elementSize bound.lastCopy := by
  have hextent := (h.padded axis (by rw [haxes]; exact List.mem_cons_self)).1
  obtain ⟨fill, hfill, -⟩ := exists_fillDst (ε := ε) h
  constructor
  · rintro ⟨uploaded, hup⟩
    simp only [executeH2D, hfill, ok_bind, h.fetch_outer haxes, bind_ok_iff] at hup
    obtain ⟨gathered, hgathered, -⟩ := hup
    exact h.lastCopy_of_gatherChunk haxes (le_refl 0) (by omega) hgathered
  · intro hlast
    obtain ⟨gathered, hgathered⟩ :=
      h.exists_gatherChunk (ε := ε) haxes (le_refl 0) (by omega) (le_refl _) hlast
    refine ⟨runCopies source gathered (runCopies (SymReloc.pattern fill.1) fill.2 memory), ?_⟩
    simp only [executeH2D, hfill, ok_bind, h.fetch_outer haxes, hgathered]
    rfl

/-- An upload takes each element to its cell. -/
theorem executeH2D_element (h : bound.Admitted) (haxes : bound.walkAxes = axis :: axes)
    (hup : executeH2D bound source memory = (.ok uploaded : Outcome ε _)) {index : List Int}
    (hvalid : Valid bound.walkAxes index) {j : Int} (hj : 0 ≤ j ∧ j < bound.elementSize) :
    uploaded (dstOffset bound.walkAxes index * bound.elementSize + j) =
      source (srcOffset bound.walkAxes index * bound.elementSize + j) := by
  have hgathers := BoundPlan.gathers_element haxes hvalid hj
  have hbounds := (h.gathers_bounds hgathers).1
  exact ((h.executeH2D_relocates haxes hup).1 _ hbounds.1 hbounds.2).1 _ hgathers

/-- What an upload has read comes back. -/
theorem executeD2H_restores (h : bound.Admitted) (haxes : bound.walkAxes = axis :: axes)
    (host : Memory UInt8) (hup : executeH2D bound source memory = (.ok uploaded : Outcome ε _)) :
    ∃ restored, executeD2H bound uploaded host = (.ok restored : Outcome ε _) ∧
      ∀ s, (bound.Reads s → restored s = source s) ∧ (¬ bound.Reads s → restored s = host s) := by
  have hrelocates := (h.executeH2D_relocates haxes hup).1
  obtain ⟨copies, hmoves, hrun⟩ := h.executeD2H_eq (ε := ε) haxes
    ((h.exists_executeH2D_iff haxes source memory).mp ⟨uploaded, hup⟩)
  refine ⟨_, hrun uploaded host, fun s => ⟨fun hread => ?_, fun hnone => ?_⟩⟩
  · refine runCopies_of_agree (fun d hd => ?_) ?_
    · have hgathers := (hmoves d s).mp hd
      have hbounds := (h.gathers_bounds hgathers).1
      exact (hrelocates d hbounds.1 hbounds.2).1 s hgathers
    · obtain ⟨d, hd⟩ := (BoundPlan.reads_iff haxes).mp hread
      exact ⟨d, (hmoves d s).mpr hd⟩
  · refine runCopies_of_not_moves fun d hd => hnone ?_
    exact (BoundPlan.reads_iff haxes).mpr ⟨d, (hmoves d s).mp hd⟩

/-- The other way round a cell comes back exactly when no other cell has the same place in the
    source. -/
theorem restores_iff (h : bound.Admitted) (haxes : bound.walkAxes = axis :: axes)
    (hlast : InBytes bound.elementSize bound.lastCopy) :
    bound.Restores ↔ ∀ index index', Valid bound.walkAxes index → Valid bound.walkAxes index' →
      srcOffset bound.walkAxes index = srcOffset bound.walkAxes index' → index = index' := by
  obtain ⟨copies, hmoves, hrun⟩ := h.executeD2H_eq (ε := String) haxes hlast
  have hes := h.size_pos
  constructor
  · intro hrestores index index' hvalid hvalid' hsame
    by_contra hne
    have hzero : (0 : Int) ≤ 0 ∧ (0 : Int) < bound.elementSize := ⟨le_refl 0, by exact_mod_cast hes⟩
    have hapart : dstOffset bound.walkAxes index' * (bound.elementSize : Int) + 0 ≠
        dstOffset bound.walkAxes index * bound.elementSize + 0 := by
      intro hplace
      exact hne (h.dstOffset_injective hvalid hvalid' (element_inj hzero hzero hplace).1.symm)
    -- a buffer that holds a one in the first byte of one cell only
    obtain ⟨buffer, hbuffer⟩ : ∃ buffer : Memory UInt8, buffer = Function.update (fun _ => 0)
        (dstOffset bound.walkAxes index * bound.elementSize + 0) 1 := ⟨_, rfl⟩
    obtain ⟨uploaded, hup⟩ := (h.exists_executeH2D_iff (ε := String) haxes
      (runCopies buffer copies fun _ => 0) fun _ => 0).mpr hlast
    have hall := hrestores _ _ _ _ _ (hrun buffer fun _ => 0) hup
    have hone := hall _ ⟨index, 0, hvalid, hzero.1, hzero.2, rfl⟩
    have hnone := hall _ ⟨index', 0, hvalid', hzero.1, hzero.2, rfl⟩
    rw [h.executeH2D_element haxes hup hvalid hzero, hbuffer, Function.update_self] at hone
    rw [h.executeH2D_element haxes hup hvalid' hzero, hbuffer, Function.update_of_ne hapart,
      ← hsame, hone] at hnone
    exact absurd hnone (by decide)
  · intro hinjective buffer memory memory' host uploaded hdown hup d hd
    rw [hrun, Outcome.ok.injEq] at hdown
    obtain ⟨index, j, hvalid, hj, hlt, rfl⟩ := hd
    have hgathers := BoundPlan.gathers_element haxes hvalid ⟨hj, hlt⟩
    rw [h.executeH2D_element haxes hup hvalid ⟨hj, hlt⟩, ← hdown]
    refine runCopies_of_moves ?_ ((hmoves _ _).mpr hgathers)
    intro s d d' hs hs'
    obtain ⟨left, k, hleft, -, -, hk, hklt, rfl, rfl⟩ := (hmoves d s).mp hs
    obtain ⟨right, k', hright, -, -, hk', hklt', rfl, heq⟩ := (hmoves d' _).mp hs'
    obtain ⟨hplace, rfl⟩ := element_inj ⟨hk, hklt⟩ ⟨hk', hklt'⟩ heq
    rw [hinjective left right hleft hright (by simpa using hplace)]

theorem srcAxes_eq (h : bound.Admitted) : bound.srcAxes = bound.walkAxes.map WalkAxis.source := by
  obtain ⟨hextents, hstrides, -⟩ := map_walkAxes h.srcRank h.dstRank
  rw [BoundPlan.srcAxes, ← hextents, ← hstrides, List.zip_map', List.map_map]
  rfl

/-- Where the test of the parallel scatter accepts, no two elements have the same place. -/
theorem injective_of_srcRowsWriteDisjoint (h : bound.Admitted)
    (hextents : ∀ extent ∈ bound.extents, FitsI64 extent)
    (haccepts : (srcRowsWriteDisjoint exact64 bound : Outcome ε Bool) = .ok true)
    (index index' : List Int) (hvalid : Valid bound.walkAxes index)
    (hvalid' : Valid bound.walkAxes index')
    (hsame : srcOffset bound.walkAxes index = srcOffset bound.walkAxes index') :
    index = index' := by
  have hstrides : ∀ axis ∈ bound.srcAxes, 0 ≤ axis.stride := by
    rw [h.srcAxes_eq]
    rintro _ hmem
    obtain ⟨axis, haxis, rfl⟩ := List.mem_map.mp hmem
    exact h.reads axis haxis
  have hreach : bound.SourceReachFits := by
    have hsat : (srcRowsWriteDisjoint exact64 bound : Outcome ε Bool).Sat fun _ => True := by
      rw [haccepts]
      trivial
    exact (sat_srcRowsWriteDisjoint_iff hextents trivial fun _ => trivial).mp hsat
  have hinjective : (srcRowsWriteDisjoint exact64 bound : Outcome ε Bool).Sat fun accepts =>
      accepts = true → Set.InjOn (Strides.offset bound.srcAxes)
        {index | Strides.InBox bound.srcAxes index} := by
    refine (sat_srcRowsWriteDisjoint_iff hextents ?_ fun hnested _ => ?_).mpr hreach
    · intro hfalse
      cases hfalse
    · exact injOn_of_nested hstrides hnested
  rw [haccepts, h.srcAxes_eq] at hinjective
  rw [srcOffset_eq, srcOffset_eq] at hsame
  exact hinjective rfl hvalid.inBox_source hvalid'.inBox_source hsame

end BoundPlan.Admitted

/-- The checks of the Python entry change nothing. -/
theorem executeD2H_of_relocateInverseHost {buffers : HostBuffers} {restored : Memory UInt8}
    (hrun : relocateInverseHost bound buffers uploaded host = .ok restored) :
    executeD2H bound uploaded host = (.ok restored : Outcome String _) := by
  simp only [relocateInverseHost, rejectTypedLayout, checkBuffer, bind_ok_iff, require_eq_ok,
    exists_unit] at hrun
  obtain ⟨-, -, srcBytes, -, -, hexecute⟩ := hrun
  exact hexecute

/-- Scattering back an upload of an accepted transfer reconstructs every byte of the source that
    the plan reads, and leaves the other bytes of the buffer. -/
theorem executeD2H_executeH2D {hardwareThreads : Nat} {request : TransferRequest}
    {options : TransferOptions} {r : TransferRequirements} (hrequest : request.Machine)
    (hbuffers : options.nBuffers < 2 ^ 31)
    (hr : describeTransfer hardwareThreads request options = .ok r) (host : Memory UInt8)
    (hup : executeH2D request.bound source memory = (.ok uploaded : Outcome String _)) :
    ∃ restored, executeD2H request.bound uploaded host = (.ok restored : Outcome String _) ∧
      (∀ buffers result, relocateInverseHost request.bound buffers uploaded host = .ok result →
        result = restored) ∧
      ∀ s, (request.bound.Reads s → restored s = source s) ∧
        (¬ request.bound.Reads s → restored s = host s) := by
  obtain ⟨axis, axes, hdescribed⟩ :=
    (sat_describeTransfer hrequest hbuffers hardwareThreads).of_ok hr
  obtain ⟨restored, hrun, hrestores⟩ :=
    hdescribed.admitted.executeD2H_restores hdescribed.axes_eq host hup
  refine ⟨restored, hrun, fun buffers result hresult => ?_, hrestores⟩
  have hsame := executeD2H_of_relocateInverseHost hresult
  rw [hrun] at hsame
  exact (Outcome.ok.inj hsame).symm

theorem executeD2H_executeH2D_pair :
    ∃ uploaded restored,
      executeH2D (stridedPair 3).bound (fun _ => 5) (fun _ => 0) =
      (.ok uploaded : Outcome String _) ∧
      executeD2H (stridedPair 3).bound uploaded (fun _ => 9) = (.ok restored : Outcome String _) ∧
      restored 6 = 5 := by
  obtain ⟨uploaded, hup⟩ : ∃ uploaded, executeH2D (stridedPair 3).bound (fun _ => 5) (fun _ => 0) =
    (.ok uploaded : Outcome String _) := ⟨_, rfl⟩
  have hok : describeTransfer 1 (stridedPair 3) serialGather = .ok (pairRequirements 8) := by
    decide +kernel
  obtain ⟨restored, hdown, -, hrestores⟩ :=
    executeD2H_executeH2D (stridedPair_machine 3) (by decide) hok (fun _ => 9) hup
  have hread : (stridedPair 3).bound.Reads 6 :=
    ⟨[1], 0, .cons (by decide) .nil, le_refl 0, by decide, by decide⟩
  exact ⟨uploaded, restored, hup, hdown, (hrestores 6).1 hread⟩

/-- Uploading what was scattered from any buffer gives each cell of an element back exactly when no
    two elements have the same place in the source; where the test of the parallel scatter accepts
    it does. -/
theorem executeH2D_executeD2H_iff {hardwareThreads : Nat} {request : TransferRequest}
    {options : TransferOptions} {r : TransferRequirements} (hrequest : request.Machine)
    (hbuffers : options.nBuffers < 2 ^ 31)
    (hr : describeTransfer hardwareThreads request options = .ok r)
    (hlast : request.bound.lastCopy * request.bound.elementSize < 2 ^ 63) :
    (request.bound.Restores ↔ ∀ index index', Valid request.bound.walkAxes index →
      Valid request.bound.walkAxes index' →
        srcOffset request.bound.walkAxes index = srcOffset request.bound.walkAxes index' →
          index = index') ∧
    ((srcRowsWriteDisjoint exact64 request.bound : Outcome String Bool) = .ok true →
      request.bound.Restores) := by
  obtain ⟨axis, axes, hdescribed⟩ :=
    (sat_describeTransfer hrequest hbuffers hardwareThreads).of_ok hr
  have hadmitted := hdescribed.admitted
  have hiff := hadmitted.restores_iff hdescribed.axes_eq
    ⟨lastStart_nonneg hadmitted.walkable (le_refl 0), hlast⟩
  refine ⟨hiff, fun haccepts => hiff.mpr ?_⟩
  exact hadmitted.injective_of_srcRowsWriteDisjoint hrequest.bound.extents haccepts

theorem executeH2D_executeD2H_pair : (stridedPair 3).bound.Restores := by
  have hok : describeTransfer 1 (stridedPair 3) serialGather = .ok (pairRequirements 8) := by
    decide +kernel
  exact (executeH2D_executeD2H_iff (stridedPair_machine 3) (by decide) hok (by decide)).2
    (by decide +kernel)

end SymReloc
