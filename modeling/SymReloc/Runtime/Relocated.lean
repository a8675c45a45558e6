import SymReloc.Runtime.Pipeline
import SymReloc.Runtime.TransferSafety

/-!
# The bytes of a relocation

Each byte of the destination of an admitted plan is the source byte that is gathered into it, or
a byte of the pad value (`Relocates`).  `executeH2D` leaves those bytes, and so does a staging
slot in which a chunk has been built, at the places of the chunk's window.
-/

namespace SymReloc

open Outcome

variable {ε : Type} {bound : BoundPlan} {axis : WalkAxis} {axes : List WalkAxis}
  {source memory result result' : Memory UInt8} {chunk : Chunk}

/-- A destination holds what the plan puts there. -/
def Relocates (bound : BoundPlan) (axis : WalkAxis) (source result : Memory UInt8) : Prop :=
  ∀ d, 0 ≤ d → d < bound.totalBytes →
    (∀ s, Gathers bound.elementSize bound.walkAxes 0 axis.extent 0 0 d s → result d = source s) ∧
    ((∀ s, ¬ Gathers bound.elementSize bound.walkAxes 0 axis.extent 0 0 d s) →
      result d = pattern bound.fillBits (d % bound.elementSize))

/-- Pads and gathered cells, one over the other. -/
theorem runCopies_filled {fills copies : List ByteCopy} {bits : Nat} {d s : Int} {c : Prop}
    {es : Nat} {total : Int} (hfills : ∀ d s, Moves fills d s ↔ c ∧ Fills es total d s)
    (hfun : Functional (Moves copies)) :
    (Moves copies d s →
      runCopies source copies (runCopies (pattern bits) fills memory) d = source s) ∧
    ((∀ s, ¬ Moves copies d s) → c → 0 ≤ d → d < total →
      runCopies source copies (runCopies (pattern bits) fills memory) d = pattern bits (d % es)) ∧
    ((∀ s, ¬ Moves copies d s) → (¬ c ∨ ¬ (0 ≤ d ∧ d < total)) →
      runCopies source copies (runCopies (pattern bits) fills memory) d = memory d) := by
  refine ⟨fun hmoves => runCopies_of_moves hfun hmoves, fun hnone hc hd hlt => ?_,
    fun hnone hout => ?_⟩
  · rw [runCopies_of_not_moves hnone]
    refine runCopies_of_moves ?_ ((hfills d _).mpr ⟨hc, ⟨hd, hlt⟩, rfl⟩)
    exact BoundPlan.Laid.functional_fills hfills
  · rw [runCopies_of_not_moves hnone, runCopies_of_not_moves]
    intro s hs
    obtain ⟨hc, hin, -⟩ := (hfills d s).mp hs
    rcases hout with hno | hno
    · exact hno hc
    · exact hno hin

/-- The sequential executor relocates, and writes nothing else. -/
theorem BoundPlan.Admitted.executeH2D_relocates (h : bound.Admitted)
    (haxes : bound.walkAxes = axis :: axes)
    (hrun : (executeH2D bound source memory : Outcome ε _) = .ok result) :
    Relocates bound axis source result ∧
      ∀ d, ¬ (0 ≤ d ∧ d < bound.totalBytes) → result d = memory d := by
  obtain ⟨fill, hfill, hbits, hfills⟩ := exists_fillDst (ε := ε) h
  have hextent := (h.padded axis (by rw [haxes]; exact List.mem_cons_self)).1
  simp only [executeH2D, hfill, ok_bind, h.fetch_outer haxes, bind_ok_iff, pure_eq,
    Outcome.ok.injEq] at hrun
  obtain ⟨copies, hcopies, rfl⟩ := hrun
  have hmoves : ∀ d s, Moves copies d s ↔
      Gathers bound.elementSize bound.walkAxes 0 axis.extent 0 0 d s := fun d s =>
    h.moves_gatherChunk haxes (le_refl 0) (by omega) (le_refl _) hcopies
  have hfun : Functional (Moves copies) := by
    intro d s s' hs hs'
    exact h.functional_gathers d s s' ((hmoves d s).mp hs) ((hmoves d s').mp hs')
  rw [hbits]
  constructor
  · intro d hd hlt
    refine ⟨fun s hs => (runCopies_filled hfills hfun).1 ((hmoves d s).mpr hs), fun hnone => ?_⟩
    refine (runCopies_filled (s := 0) hfills hfun).2.1 (fun s hs => hnone s ((hmoves d s).mp hs)) ?_
      hd hlt
    -- without pads every byte is gathered
    intro hbare
    obtain ⟨s, hs⟩ := h.exists_gathers hbare haxes ⟨hd, hlt⟩
    exact hnone s hs
  · intro d hout
    refine (runCopies_filled (s := 0) hfills hfun).2.2 (fun s hs => hout ?_) (.inr hout)
    exact (h.gathers_bounds ((hmoves d s).mp hs)).1

/-- A chunk built in a slot holds the bytes of its window. -/
theorem Chunk.Sound.staged (hchunk : chunk.Sound bound axis) (h : bound.Admitted)
    (haxes : bound.walkAxes = axis :: axes)
    (hrow : FitsI64 (axis.dstStride * bound.elementSize))
    (hwindow : chunk.byteOffset + chunk.bytes ≤ bound.totalBytes)
    {fill : Nat × List ByteCopy}
    (hfill : (fillStagingWindow bound chunk.bytes : Outcome ε _) = .ok fill)
    {parts : List (Int × Int)} (hparts : chunk.validBegin < chunk.validEnd →
      Partition chunk.validBegin parts chunk.validEnd) {copies : List ByteCopy}
    (hcopies : (chunkCopies bound chunk parts : Outcome ε _) = .ok copies)
    (hresult : Relocates bound axis source result) {d : Int} (hd : 0 ≤ d) (hlt : d < chunk.bytes) :
    runCopies source copies (runCopies (pattern fill.1) fill.2 memory) d =
      result (chunk.byteOffset + d) := by
  obtain ⟨count, hcount⟩ := hchunk.whole
  rw [hcount] at hfill hlt
  obtain ⟨hbits, hfills⟩ := fillStagingWindow_eq_ok h.size_pos hfill
  have hoffset : 0 ≤ chunk.byteOffset := by
    rw [hchunk.base]
    exact mul_nonneg (mul_nonneg hchunk.first.1 (h.writes axis (by rw [haxes]; simp)))
      (Int.natCast_nonneg _)
  have hmoves : ∀ d s, Moves copies d s ↔ Gathers bound.elementSize bound.walkAxes chunk.validBegin
      chunk.validEnd 0 0 (d + chunk.byteOffset) s := by
    intro d s
    by_cases hrows : chunk.validBegin < chunk.validEnd
    · exact moves_chunkCopies hchunk h haxes hrow (by omega) (hparts hrows) hcopies
    · rw [chunkCopies, if_neg hrows] at hcopies
      cases hcopies
      refine iff_of_false moves_nil ?_
      rintro ⟨index, j, -, hlo, hhi, -⟩
      omega
  have hfun : Functional (Moves copies) := by
    intro d s s' hs hs'
    exact h.functional_gathers _ s s' ((hmoves d s).mp hs) ((hmoves d s').mp hs')
  have hbytes : chunk.byteOffset + d < bound.totalBytes := by
    rw [hcount] at hwindow
    omega
  have hholds : chunk.Holds (d + chunk.byteOffset) := by
    constructor
    · omega
    · rw [hcount]
      omega
  obtain ⟨hgathered, hpad⟩ := hresult (chunk.byteOffset + d) (by omega) hbytes
  have hall : ∀ s, Moves copies d s ↔
      Gathers bound.elementSize bound.walkAxes 0 axis.extent 0 0 (chunk.byteOffset + d) s := by
    intro s
    rw [hmoves, add_comm d]
    constructor
    · rintro ⟨index, j, hvalid, hlo, hhi, hrest⟩
      have hrange := hchunk.valid
      exact ⟨index, j, hvalid, by omega, by omega, hrest⟩
    · intro hs
      exact hchunk.gathers_of_holds h haxes (by rwa [add_comm]) hs
  rw [hbits]
  by_cases hany : ∃ s, Moves copies d s
  · obtain ⟨s, hs⟩ := hany
    rw [(runCopies_filled hfills hfun).1 hs, hgathered s ((hall s).mp hs)]
  · rw [not_exists] at hany
    have hnone : ∀ s, ¬ Gathers bound.elementSize bound.walkAxes 0 axis.extent 0 0
        (chunk.byteOffset + d) s := fun s hs => hany s ((hall s).mpr hs)
    have hpads : bound.padRegions ≠ [] := by
      intro hbare
      obtain ⟨s, hs⟩ := h.exists_gathers hbare haxes ⟨by omega, hbytes⟩
      exact hnone s hs
    rw [(runCopies_filled (s := 0) hfills hfun).2.1 hany hpads hd hlt, hpad hnone, hchunk.base]
    -- the window starts at an element
    rw [add_comm, Int.add_mul_emod_self_right]

end SymReloc
