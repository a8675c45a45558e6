import SymReloc.Reloc.Canonicalize
import SymReloc.Sym.Overflow

/-!
# What the verdicts mean

A proven relation holds under every assignment for which both sides have a value, a disproven one
under none.  `proveEqual` and `proveLessEqual` are sound as they are; `provePadRange` adds three
expressions first, and is sound exactly when the constants of that sum stay in the signed words.
-/

namespace SymReloc

open Outcome SymExpr

/-! ### Sound verdicts -/

/-- Both sides have a value, and these are related. -/
def Relates (relation : Int → Int → Prop) (σ : Name → Int) (lhs rhs : SymExpr) : Prop :=
  ∃ l r, lhs.eval σ = some l ∧ rhs.eval σ = some r ∧ relation l r

/-- The values are related if both sides have one. -/
def RelatesWhereDefined (relation : Int → Int → Prop) (σ : Name → Int) (lhs rhs : SymExpr) :
    Prop :=
  ∀ l r, lhs.eval σ = some l → rhs.eval σ = some r → relation l r

/-- A proven verdict means `always` under every assignment, a disproven one `holds` under none. -/
structure Proof.Sound (verdict : Proof) (always holds : (Name → Int) → Prop) : Prop where
  proven : verdict = .proven → ∀ σ, always σ
  disproven : verdict = .disproven → ∀ σ, ¬ holds σ

theorem proveEqual_sound (lhs rhs : SymExpr) :
    (proveEqual lhs rhs).Sound (RelatesWhereDefined (· = ·) · lhs rhs)
      (Relates (· = ·) · lhs rhs) where
  proven h σ l r hl hr := by
    rw [proveEqual_proven h σ, hr] at hl
    exact (Option.some.inj hl).symm
  disproven h σ := by
    obtain ⟨l, r, rfl, rfl, hne⟩ := proveEqual_disproven h
    rintro ⟨l', r', hl, hr, heq⟩
    cases hl
    cases hr
    exact hne heq

theorem proveLessEqual_proven {lhs rhs : SymExpr} (h : proveLessEqual lhs rhs = .proven)
    (σ : Name → Int) : RelatesWhereDefined (· ≤ ·) σ lhs rhs := by
  intro l r hl hr
  unfold proveLessEqual at h
  split at h
  · split at h
    · cases hl
      cases hr
      assumption
    · cases h
  · split at h
    · rename_i heq
      rw [areLogicallyEqual_eval σ heq, hr] at hl
      exact (Option.some.inj hl).ge
    · cases h

theorem proveLessEqual_sound (lhs rhs : SymExpr) :
    (proveLessEqual lhs rhs).Sound (RelatesWhereDefined (· ≤ ·) · lhs rhs)
      (Relates (· ≤ ·) · lhs rhs) where
  proven := proveLessEqual_proven
  disproven h σ := by
    obtain ⟨l, r, rfl, rfl, hlt⟩ := proveLessEqual_disproven h
    rintro ⟨l', r', hl, hr, hle⟩
    cases hl
    cases hr
    exact absurd hle (by omega)

/-! ### Conjunctions -/

theorem combineProofs_proven {start : Proof} {proofs : List Proof}
    (h : combineProofs start proofs = .proven) : start = .proven ∧ ∀ p ∈ proofs, p = .proven := by
  induction proofs generalizing start with
  | nil => exact ⟨h, by simp⟩
  | cons verdict rest ih =>
      cases verdict with
      | proven =>
          obtain ⟨hstart, hrest⟩ := ih h
          exact ⟨hstart, by simpa using hrest⟩
      | disproven => cases h
      | unknown => cases (ih h).1

theorem combineProofs_disproven {start : Proof} {proofs : List Proof}
    (hstart : start ≠ .disproven) (h : combineProofs start proofs = .disproven) :
    .disproven ∈ proofs := by
  induction proofs generalizing start with
  | nil => exact absurd h hstart
  | cons verdict rest ih =>
      cases verdict with
      | proven => exact List.mem_cons_of_mem _ (ih hstart h)
      | disproven => exact List.mem_cons_self
      | unknown => exact List.mem_cons_of_mem _ (ih (by decide) h)

/-! ### The range of a pad -/

/-- The source extent with its pads, as the verifier states it. -/
def paddedSum (extent lo hi : SymExpr) : SymExpr := .binary .add (.binary .add extent lo) hi

/-- The three relations of a pad, each where its sides have values. -/
def PadRangeWhereDefined (pad : PadFillAttr) (axes : List AxisInfoAttr) (dst : TensorDescAttr)
    (σ : Name → Int) : Prop :=
  ∃ axis dstExtent, axes[pad.dstAxis]? = some axis ∧ dst.extents[pad.dstAxis]? = some dstExtent ∧
    RelatesWhereDefined (· ≤ ·) σ (.constant 0) pad.lo ∧
    RelatesWhereDefined (· ≤ ·) σ (.constant 0) pad.hi ∧
    RelatesWhereDefined (· = ·) σ (paddedSum axis.extent pad.lo pad.hi) dstExtent

/-- The axis exists, and the three relations hold between values. -/
def PadRange (pad : PadFillAttr) (axes : List AxisInfoAttr) (dst : TensorDescAttr)
    (σ : Name → Int) : Prop :=
  ∃ axis dstExtent, axes[pad.dstAxis]? = some axis ∧ dst.extents[pad.dstAxis]? = some dstExtent ∧
    Relates (· ≤ ·) σ (.constant 0) pad.lo ∧ Relates (· ≤ ·) σ (.constant 0) pad.hi ∧
    Relates (· = ·) σ (paddedSum axis.extent pad.lo pad.hi) dstExtent

section
variable {ε : Type}

/-- The padded extent in signed words. -/
def paddedExtent64 (extent lo hi : SymExpr) : Outcome ε SymExpr := do
  let sum ← getSimplifiedBinaryExpr64 .add extent lo
  getSimplifiedBinaryExpr64 .add sum hi

/-- `provePadRange` in signed words: undefined where a constant of the sum does not fit. -/
def provePadRange64 (pad : PadFillAttr) (axes : List AxisInfoAttr) (dst : TensorDescAttr) :
    Outcome ε Proof :=
  match axes[pad.dstAxis]?, dst.extents[pad.dstAxis]? with
  | some axis, some dstExtent => do
      let sum ← paddedExtent64 axis.extent pad.lo pad.hi
      pure (combineProofs .proven [proveLessEqual (.constant 0) pad.lo,
        proveLessEqual (.constant 0) pad.hi, proveEqual sum dstExtent])
  | _, _ => .ok .disproven

end

/-- The constants that adding `lo` and then `hi` to the extent makes, over the integers. -/
def paddedConstants (extent lo hi : SymExpr) : List Int :=
  foldedConstants .add extent lo ++
    foldedConstants .add (getSimplifiedBinaryExpr id .add extent lo) hi

/-- No constant of the padded extent leaves the signed words. -/
def PadFits (pad : PadFillAttr) (axes : List AxisInfoAttr) (dst : TensorDescAttr) : Prop :=
  ∀ axis dstExtent, axes[pad.dstAxis]? = some axis → dst.extents[pad.dstAxis]? = some dstExtent →
    ∀ c ∈ paddedConstants axis.extent pad.lo pad.hi, FitsI64 c

theorem paddedExtent64_eq_ok {ε : Type} {extent lo hi sum : SymExpr} :
    (paddedExtent64 extent lo hi : Outcome ε SymExpr) = .ok sum ↔
      (∀ c ∈ paddedConstants extent lo hi, FitsI64 c) ∧ paddedExtent id extent lo hi = sum := by
  simp only [paddedExtent64, bind_ok_iff, getSimplifiedBinaryExpr64_eq_ok, paddedConstants,
    List.forall_mem_append, paddedExtent]
  constructor
  · rintro ⟨_, ⟨hlo, rfl⟩, hhi, hsum⟩
    exact ⟨⟨hlo, hhi⟩, hsum⟩
  · rintro ⟨⟨hlo, hhi⟩, hsum⟩
    exact ⟨_, ⟨hlo, rfl⟩, hhi, hsum⟩

/-- The simplified sum has the value of the sum. -/
theorem refines_paddedExtent (σ : Name → Int) (extent lo hi : SymExpr) :
    Refines σ (paddedSum extent lo hi) (paddedExtent id extent lo hi) := by
  intro value hvalue
  obtain ⟨l, r, hl, hr, happly⟩ := eval_binary_eq_some.mp hvalue
  exact getSimplifiedBinaryExpr_eval (getSimplifiedBinaryExpr_refines σ .add extent lo l hl) hr
    happly

theorem provePadRange64_eq_ok {ε : Type} {pad : PadFillAttr} {axes : List AxisInfoAttr}
    {dst : TensorDescAttr} {verdict : Proof} :
    (provePadRange64 pad axes dst : Outcome ε Proof) = .ok verdict ↔
      PadFits pad axes dst ∧ provePadRange id pad axes dst = verdict := by
  unfold provePadRange64 provePadRange PadFits
  cases haxis : axes[pad.dstAxis]? with
  | none => simp
  | some axis =>
      cases hdst : dst.extents[pad.dstAxis]? with
      | none => simp
      | some dstExtent =>
          simp only [bind_ok_iff, paddedExtent64_eq_ok, pure_eq, Outcome.ok.injEq]
          constructor
          · rintro ⟨_, ⟨hfits, rfl⟩, rfl⟩
            refine ⟨fun axis' dstExtent' haxis' hdst' => ?_, rfl⟩
            cases haxis'
            exact hfits
          · rintro ⟨hfits, rfl⟩
            exact ⟨_, ⟨hfits _ _ rfl rfl, rfl⟩, rfl⟩

/-- With exact sums the verdict on a pad is sound. -/
theorem provePadRange_sound (pad : PadFillAttr) (axes : List AxisInfoAttr) (dst : TensorDescAttr) :
    (provePadRange id pad axes dst).Sound (PadRangeWhereDefined pad axes dst)
      (PadRange pad axes dst) := by
  unfold provePadRange PadRangeWhereDefined PadRange
  cases haxis : axes[pad.dstAxis]? with
  | none => exact ⟨nofun, fun _ σ => by simp⟩
  | some axis =>
      cases hdst : dst.extents[pad.dstAxis]? with
      | none => exact ⟨nofun, fun _ σ => by simp⟩
      | some dstExtent =>
          have hlo := proveLessEqual_sound (.constant 0) pad.lo
          have hhi := proveLessEqual_sound (.constant 0) pad.hi
          have hsum := proveEqual_sound (paddedExtent id axis.extent pad.lo pad.hi) dstExtent
          constructor
          · intro hproven σ
            have hall := (combineProofs_proven hproven).2
            simp only [List.forall_mem_cons, List.not_mem_nil, false_implies, implies_true,
              and_true] at hall
            refine ⟨axis, dstExtent, rfl, rfl, hlo.proven hall.1 σ, hhi.proven hall.2.1 σ, ?_⟩
            intro l r hl hr
            exact hsum.proven hall.2.2 σ l r (refines_paddedExtent σ _ _ _ l hl) hr
          · intro hdisproven σ
            rintro ⟨axis', dstExtent', haxis', hdst', hrlo, hrhi, l, r, hl, hr, heq⟩
            cases haxis'
            cases hdst'
            have hmem := combineProofs_disproven (by decide) hdisproven
            simp only [List.mem_cons, List.not_mem_nil, or_false] at hmem
            rcases hmem with h | h | h
            · exact hlo.disproven h.symm σ hrlo
            · exact hhi.disproven h.symm σ hrhi
            · exact hsum.disproven h.symm σ ⟨l, r, refines_paddedExtent σ _ _ _ l hl, hr, heq⟩

/-- What the verifier proves in words about the sum holds over the integers if it fits. -/
theorem paddedExtent_wrap64 {extent lo hi : SymExpr}
    (h : ∀ c ∈ paddedConstants extent lo hi, FitsI64 c) :
    paddedExtent wrap64 extent lo hi = paddedExtent id extent lo hi := by
  rw [paddedConstants, List.forall_mem_append] at h
  unfold paddedExtent
  rw [getSimplifiedBinaryExpr_wrap64 h.1, getSimplifiedBinaryExpr_wrap64 h.2]

/-- A pad that the verifier accepts without a run-time check needs none. -/
theorem checkPad_static {pad : PadFillAttr} {axes : List AxisInfoAttr} {dst : TensorDescAttr}
    (hcheck : checkPad wrap64 axes dst false pad = .ok ()) (hfits : PadFits pad axes dst)
    (σ : Name → Int) :
    ∃ axis dstExtent, axes[pad.dstAxis]? = some axis ∧ dst.extents[pad.dstAxis]? = some dstExtent ∧
      RelatesWhereDefined (· = ·) σ (paddedSum axis.extent pad.lo pad.hi) dstExtent := by
  unfold checkPad at hcheck
  split at hcheck
  · rename_i axis dstExtent haxis hdst
    simp only [expect_bind_eq_ok, expect_eq_ok] at hcheck
    obtain ⟨-, -, hnot, hknown⟩ := hcheck
    rw [paddedExtent_wrap64 (hfits _ _ haxis hdst)] at hnot hknown
    have hproven : proveEqual (paddedExtent id axis.extent pad.lo pad.hi) dstExtent = .proven := by
      cases hverdict : proveEqual (paddedExtent id axis.extent pad.lo pad.hi) dstExtent with
      | proven => rfl
      | disproven => exact absurd hverdict hnot
      | unknown => simp [hverdict] at hknown
    refine ⟨axis, dstExtent, haxis, hdst, fun l r hl hr => ?_⟩
    exact (proveEqual_sound _ _).proven hproven σ l r (refines_paddedExtent σ _ _ _ l hl) hr
  · cases hcheck

/-- The verdicts are sound, that on a pad exactly when its sum stays in the signed words, and a
    plan verified without the run-time check of its pads passes that check. -/
theorem verdicts_sound_iff (pad : PadFillAttr) (axes : List AxisInfoAttr) (dst : TensorDescAttr) :
    (∀ lhs rhs, (proveEqual lhs rhs).Sound (RelatesWhereDefined (· = ·) · lhs rhs)
      (Relates (· = ·) · lhs rhs)) ∧
    (∀ lhs rhs, (proveLessEqual lhs rhs).Sound (RelatesWhereDefined (· ≤ ·) · lhs rhs)
      (Relates (· ≤ ·) · lhs rhs)) ∧
    ((∃ verdict, (provePadRange64 pad axes dst : Outcome Unit Proof) = .ok verdict ∧
        verdict.Sound (PadRangeWhereDefined pad axes dst) (PadRange pad axes dst)) ↔
      PadFits pad axes dst) ∧
    ∀ plan : PlanAttr, plan.verify wrap64 = .ok () → plan.runtimePadCheck = false →
      ∀ pad ∈ plan.padFill, PadFits pad plan.axes plan.dst → ∀ σ,
        ∃ axis dstExtent, plan.axes[pad.dstAxis]? = some axis ∧
          plan.dst.extents[pad.dstAxis]? = some dstExtent ∧
          RelatesWhereDefined (· = ·) σ (paddedSum axis.extent pad.lo pad.hi) dstExtent := by
  refine ⟨proveEqual_sound, proveLessEqual_sound, ⟨?_, fun hfits => ?_⟩, ?_⟩
  · rintro ⟨verdict, hrun, -⟩
    exact (provePadRange64_eq_ok.1 hrun).1
  · exact ⟨_, provePadRange64_eq_ok.2 ⟨hfits, rfl⟩, provePadRange_sound pad axes dst⟩
  · intro plan hverify hstatic pad hpad hfits σ
    have hcheck := (PlanAttr.verify_eq_ok.1 hverify).pads pad hpad
    rw [hstatic] at hcheck
    exact checkPad_static hcheck hfits σ

/-- A vector of symbolic length, one cell in front and two behind. -/
def framedVector : PlanAttr where
  src := .packed [.symbol [110]] .f32 MlirType.isTensorElement_f32
  dst := .packed [.binary .add (.symbol [110]) (.constant 3)] .f32 MlirType.isTensorElement_f32
  perm := [0]
  axes := [⟨[97], .symbol [110], .constant 1, .constant 1⟩]
  padFill := [⟨0, .constant 1, .constant 2, .float .f32 0⟩]
  divisibility := []
  alignment := []
  contiguity := []
  noCopy := false
  runtimePadCheck := false
  inverse := .identity 1

theorem verdicts_sound_framedVector :
    ∃ axis dstExtent, framedVector.axes[0]? = some axis ∧
      framedVector.dst.extents[0]? = some dstExtent ∧
      RelatesWhereDefined (· = ·) (fun _ => 5)
        (paddedSum axis.extent (.constant 1) (.constant 2)) dstExtent := by
  have hfits : PadFits ⟨0, .constant 1, .constant 2, .float .f32 0⟩ framedVector.axes
      framedVector.dst := by
    intro axis dstExtent haxis _
    cases haxis
    decide
  exact (verdicts_sound_iff ⟨0, .constant 1, .constant 2, .float .f32 0⟩ framedVector.axes
    framedVector.dst).2.2.2 framedVector (by decide +kernel) rfl _ List.mem_cons_self hfits
    fun _ => 5

/-- `n + (2^63 - 1)` and one cell more: two's complement proves the sum equal to `n - 2^63`. -/
theorem provePadRange_overflow :
    let pad : PadFillAttr := ⟨0, .constant 1, .constant 0, .float .f32 0⟩
    let axes : List AxisInfoAttr :=
      [⟨[97], .binary .add (.symbol [110]) (.constant (2 ^ 63 - 1)), .constant 1, .constant 1⟩]
    let dst : TensorDescAttr :=
      ⟨[.binary .add (.symbol [110]) (.constant (-2 ^ 63))], [], .constant 0, .f32, .inl rfl,
        by decide⟩
    (provePadRange64 pad axes dst : Outcome Unit Proof) = .fault .signedOverflow ∧
      provePadRange wrap64 pad axes dst = .proven ∧
      ∀ σ, ¬ PadRangeWhereDefined pad axes dst σ := by
  refine ⟨by decide +kernel, by decide +kernel, fun σ => ?_⟩
  rintro ⟨axis, dstExtent, haxis, hdst, -, -, hsum⟩
  cases haxis
  cases hdst
  have heq := hsum (σ [110] + (2 ^ 63 - 1) + 1 + 0) (σ [110] + -2 ^ 63) rfl rfl
  omega

end SymReloc
