import SymReloc.Runtime.Transfer

/-!
# What the transfer validator establishes

One lemma for each check: on machine values it does not fault, and what it says of
the views and of the plan when it accepts.  `sat_describeTransfer` puts them
together.
-/

namespace SymReloc

open Outcome

/-! ### Machine values -/

structure BufferView.Machine (view : BufferView) : Prop where
  extents : ∀ extent ∈ view.extents, FitsI64 extent
  size : view.elementSize < 2 ^ 32

structure BoundPlan.Machine (bound : BoundPlan) : Prop where
  extents : ∀ extent ∈ bound.extents, FitsI64 extent
  size : bound.elementSize < 2 ^ 32
  total : FitsI64 bound.totalBytes

/-- The fields of the request have the ranges of their machine types. -/
structure TransferRequest.Machine (request : TransferRequest) : Prop where
  bound : request.bound.Machine
  source : request.source.Machine
  destination : request.destination.Machine

/-! ### Views -/

def entryAxis (entry : Int × Int) : Strides.Axis := ⟨entry.1, entry.2⟩

def BufferView.axes (view : BufferView) : List Strides.Axis :=
  (view.extents.zip view.strides).map entryAxis

/-- What `viewSpanBytes` says of a view. -/
structure BufferView.Spans (view : BufferView) (bytes : Nat) : Prop where
  size_pos : view.elementSize ≠ 0
  rank : view.extents.length = view.strides.length
  forward : Strides.Forward view.axes
  nested : ∃ order : List Strides.Axis, order.Perm view.axes ∧ Strides.Nested 0 order
  bytes_eq : (bytes : Int) = (Strides.reach view.axes + 1) * view.elementSize
  bytes_fits : FitsSize bytes
  inside : view.offsetBytes + bytes ≤ view.capacityBytes

theorem sat_viewAxes (what : String) (entries : List (Int × Int)) :
    (viewAxes what entries).Sat fun axes => Strides.Forward (entries.map entryAxis) ∧
      axes = (entries.map entryAxis).filter fun axis => axis.extent ≠ 1 := by
  induction entries with
  | nil => exact ⟨fun axis hmem => absurd hmem List.not_mem_nil, rfl⟩
  | cons entry rest ih =>
      rw [viewAxes, sat_require_bind]
      intro hextent
      rw [sat_require_bind]
      intro hstride
      rw [List.map_cons, Strides.forward_cons, List.filter_cons]
      refine sat_ite (fun hone => ?_) fun hne => ?_
      · refine ih.mono fun axes h => ⟨⟨⟨hextent, hstride⟩, h.1⟩, ?_⟩
        rw [if_neg (by rw [decide_eq_true_eq]; exact not_not.mpr hone)]
        exact h.2
      · rw [sat_require_bind]
        intro _
        rw [sat_bind]
        refine ih.mono fun axes h => ⟨⟨⟨hextent, hstride⟩, h.1⟩, ?_⟩
        rw [if_pos (by rw [decide_eq_true_eq]; exact hne), h.2]
        rfl

theorem sat_spanOf (what : String) {axes : List Strides.Axis} (hforward : Strides.Forward axes)
    (hextents : ∀ axis ∈ axes, FitsI64 axis.extent) {span : Int} (hspan : FitsI64 span) :
    (spanOf what axes span).Sat fun result => Strides.Nested span axes ∧
      result = span + Strides.reach axes ∧ FitsI64 result := by
  induction axes generalizing span with
  | nil => exact ⟨trivial, (add_zero span).symm, hspan⟩
  | cons axis rest ih =>
      rw [Strides.forward_cons] at hforward
      have hextent := hextents axis (by simp)
      rw [spanOf, sat_require_bind]
      intro hgap
      have hlast : FitsI64 (axis.extent - 1) := by
        unfold FitsI64 at hextent ⊢
        omega
      refine sat_exact64_bind hlast (sat_checkedOr_bind fun _ => sat_checkedOr_bind fun hnext => ?_)
      refine (ih hforward.2 (fun a ha => hextents a (by simp [ha])) hnext).mono fun result h => ?_
      exact ⟨⟨.inr hgap, h.1⟩, by rw [h.2.1, Strides.reach, add_assoc], h.2.2⟩

theorem nested_ones {ones axes : List Strides.Axis} (hones : ∀ axis ∈ ones, axis.extent = 1)
    {below : Int} (h : Strides.Nested below axes) : Strides.Nested below (ones ++ axes) := by
  induction ones with
  | nil => exact h
  | cons axis rest ih =>
      have hone := hones axis (by simp)
      refine ⟨.inl hone, ?_⟩
      rw [hone, sub_self, zero_mul, add_zero]
      exact ih fun a ha => hones a (by simp [ha])

theorem reach_ones {ones : List Strides.Axis} (hones : ∀ axis ∈ ones, axis.extent = 1)
    (axes : List Strides.Axis) : Strides.reach (ones ++ axes) = Strides.reach axes := by
  induction ones with
  | nil => rfl
  | cons axis rest ih =>
      rw [List.cons_append, Strides.reach, hones axis (by simp), sub_self, zero_mul, zero_add]
      exact ih fun a ha => hones a (by simp [ha])

/-- The axes of extent one, and the others sorted. -/
theorem perm_sorted (axes : List Strides.Axis) :
    (axes.filter (fun axis => ¬ axis.extent ≠ 1) ++
      (axes.filter fun axis => axis.extent ≠ 1).insertionSort axisLE).Perm axes := by
  have hsort := List.perm_insertionSort axisLE (axes.filter fun axis => axis.extent ≠ 1)
  have hsplit := List.filter_append_perm (fun axis : Strides.Axis => decide (axis.extent ≠ 1)) axes
  refine (List.Perm.append_left _ hsort).trans (List.perm_append_comm.trans ?_)
  simpa using hsplit

theorem sat_viewSpanBytes {view : BufferView} (hview : ∀ extent ∈ view.extents, FitsI64 extent)
    (what : String) : (viewSpanBytes view what).Sat fun bytes => view.Spans bytes := by
  unfold viewSpanBytes
  rw [sat_require_bind]
  intro _
  rw [sat_require_bind]
  intro hsize
  rw [sat_require_bind]
  intro _
  rw [sat_require_bind]
  intro hrank
  rw [sat_require_bind]
  intro _
  rw [sat_require_bind]
  intro _
  rw [sat_bind]
  refine (sat_viewAxes what _).mono fun counted hcounted => ?_
  obtain ⟨hforward, rfl⟩ := hcounted
  change Strides.Forward view.axes at hforward
  have hperm := perm_sorted view.axes
  have hones : ∀ axis ∈ view.axes.filter (fun axis => ¬ axis.extent ≠ 1), axis.extent = 1 := by
    intro axis hmem
    simpa using (List.mem_filter.mp hmem).2
  have hsorted : Strides.Forward
      ((view.axes.filter fun axis => axis.extent ≠ 1).insertionSort axisLE) := by
    intro axis hmem
    rw [List.mem_insertionSort] at hmem
    exact hforward axis (List.mem_filter.mp hmem).1
  rw [sat_bind]
  refine (sat_spanOf what hsorted ?_ (by decide)).mono fun span hspan => ?_
  · intro axis hmem
    rw [List.mem_insertionSort] at hmem
    obtain ⟨entry, hentry, rfl⟩ := List.mem_map.mp (List.mem_filter.mp hmem).1
    exact hview _ (List.of_mem_zip hentry).1
  obtain ⟨hnested, hreach, hfits⟩ := hspan
  rw [zero_add] at hreach
  have hreach' : span = Strides.reach view.axes := by
    rw [hreach, ← Strides.reach_perm hperm, reach_ones hones]
  have hspan0 : 0 ≤ span := hreach' ▸ hforward.reach_nonneg
  have hcast := toSize_of_nonneg hspan0 hfits
  refine sat_exactSize_bind ?_ ?_
  · unfold FitsI64 at hfits
    unfold FitsSize
    omega
  refine sat_checkedSizeOr_bind fun hbytes => sat_checkedSizeOr_bind fun _ => ?_
  rw [sat_require_bind]
  intro hinside
  refine ⟨hsize, hrank, hforward, ⟨_, hperm, nested_ones hones hnested⟩, ?_, hbytes, hinside⟩
  rw [Nat.cast_mul, Nat.cast_add, hcast, hreach', Nat.cast_one]

/-! ### Counts and reaches -/

theorem elementCount_eq_some {extents : List Int} {count result : Int}
    (h : elementCount extents count = some result) :
    (∀ extent ∈ extents, 1 ≤ extent) ∧ result = count * extents.prod := by
  induction extents generalizing count with
  | nil =>
      cases h
      exact ⟨by simp, by simp⟩
  | cons extent rest ih =>
      rw [elementCount] at h
      split at h
      · cases h
      · rename_i hpos
        split at h
        · cases h
        · rename_i next hnext
          obtain ⟨-, rfl⟩ := checked64_eq_some.mp hnext
          obtain ⟨hall, hprod⟩ := ih h
          rw [List.forall_mem_cons, List.prod_cons, hprod, mul_assoc]
          exact ⟨⟨by omega, hall⟩, rfl⟩

theorem sat_elementCountOr (extents : List Int) (overflow : TransferError) :
    (elementCountOr extents overflow).Sat fun count =>
      (∀ extent ∈ extents, 1 ≤ extent) ∧ count = extents.prod := by
  unfold elementCountOr
  cases hcount : elementCount extents 1 with
  | none => trivial
  | some count =>
      obtain ⟨hall, hprod⟩ := elementCount_eq_some hcount
      exact ⟨hall, by rw [hprod, one_mul]⟩

theorem cells_eq_prod (entries : List (Int × Int)) :
    Strides.cells (entries.map entryAxis) = (entries.map Prod.fst).prod := by
  induction entries with
  | nil => rfl
  | cons entry rest ih => exact congrArg (entry.1 * ·) ih

theorem sat_planReach (negative overflow : TransferError) {entries : List (Int × Int)}
    (hextents : ∀ entry ∈ entries, 1 ≤ entry.1 ∧ FitsI64 entry.1) {reach : Int}
    (hreach : FitsI64 reach) :
    (planReach negative overflow entries reach).Sat fun result =>
      Strides.Forward (entries.map entryAxis) ∧
        result = reach + Strides.reach (entries.map entryAxis) ∧ FitsI64 result := by
  induction entries generalizing reach with
  | nil => exact ⟨fun axis hmem => absurd hmem List.not_mem_nil, (add_zero reach).symm, hreach⟩
  | cons entry rest ih =>
      obtain ⟨hpos, hextent⟩ := hextents entry (by simp)
      rw [planReach, sat_require_bind]
      intro hstride
      have hlast : FitsI64 (entry.1 - 1) := by
        unfold FitsI64 at hextent ⊢
        omega
      refine sat_exact64_bind hlast (sat_checkedOr_bind fun _ => sat_checkedOr_bind fun hnext => ?_)
      refine (ih (fun e he => hextents e (by simp [he])) hnext).mono fun result h => ?_
      rw [List.map_cons, Strides.forward_cons, Strides.reach]
      exact ⟨⟨⟨hpos, hstride⟩, h.1⟩, by rw [h.2.1, add_assoc]; rfl, h.2.2⟩

/-- What the check against the source says of the plan. -/
structure BoundPlan.ReadsFrom (bound : BoundPlan) (source : BufferView) (bytes : Nat) : Prop where
  rank : bound.extents ≠ []
  srcRank : bound.srcStrides.length = bound.extents.length
  dstRank : bound.dstStrides.length = bound.extents.length
  untyped : bound.typed = false
  size_pos : 0 < bound.elementSize
  size_eq : bound.elementSize = source.elementSize
  extents : ∀ extent ∈ bound.extents, 1 ≤ extent
  forward : Strides.Forward ((bound.extents.zip bound.srcStrides).map entryAxis)
  footprint : (Strides.reach ((bound.extents.zip bound.srcStrides).map entryAxis) + 1) *
    bound.elementSize ≤ bytes

theorem sat_checkPlanAgainstSource {bound : BoundPlan} (hbound : bound.Machine)
    (source : BufferView) (bytes : Nat) :
    (checkPlanAgainstSource bound source bytes).Sat fun _ => bound.ReadsFrom source bytes := by
  unfold checkPlanAgainstSource
  rw [sat_require_bind]
  rintro ⟨hrank, hsrc, hdst⟩
  rw [sat_require_bind]
  intro huntyped
  rw [sat_require_bind]
  rintro ⟨hsize, heq⟩
  rw [sat_bind]
  refine (sat_elementCountOr _ _).mono fun count hcount => ?_
  rw [sat_bind]
  refine (sat_elementCountOr _ _).mono fun _ _ => ?_
  rw [sat_require_bind]
  intro _
  rw [sat_bind]
  refine (sat_planReach _ _ ?_ (by decide)).mono fun reach hreach => ?_
  · intro entry hmem
    have hextent := (List.of_mem_zip hmem).1
    exact ⟨hcount.1 _ hextent, hbound.extents _ hextent⟩
  obtain ⟨hforward, hreach, hfits⟩ := hreach
  rw [zero_add] at hreach
  refine sat_checkedSizeOr_bind fun _ => sat_require fun hneeded => ?_
  have hcast := toSize_of_nonneg (hreach ▸ hforward.reach_nonneg) hfits
  refine ⟨hrank, hsrc.symm, hdst.symm, huntyped, by omega, heq, hcount.1, hforward, ?_⟩
  rw [← hreach, ← hcast]
  exact_mod_cast hneeded

/-! ### Pads -/

/-- What the sum of the pads says, whichever function computes it. -/
def Widens (padded : List Int) (regions : List PadRegion) (widened : List Int) : Prop :=
  ∀ ε : Type, (padExtents padded regions : Outcome ε _) = .ok widened

theorem sat_checkedPads {length : Nat} {padded : List Int} (hlength : padded.length = length)
    (hpadded : ∀ extent ∈ padded, 1 ≤ extent ∧ FitsI64 extent) (regions : List PadRegion) :
    (checkedPads length padded regions).Sat fun widened => Widens padded regions widened ∧
      (∀ region ∈ regions, region.axis < length ∧ 0 ≤ region.lo ∧ 0 ≤ region.hi) ∧
      ∀ extent ∈ widened, 1 ≤ extent ∧ FitsI64 extent := by
  induction regions generalizing padded with
  | nil => exact ⟨fun _ => rfl, by simp, hpadded⟩
  | cons region rest ih =>
      rw [checkedPads, sat_require_bind]
      rintro ⟨haxis, hlo, hhi⟩
      have hlt : region.axis < padded.length := hlength ▸ haxis
      refine sat_fetch_bind hlt (sat_checkedOr_bind fun hfront => sat_checkedOr_bind fun hwide =>
        ?_)
      have hcurrent := (hpadded _ (List.getElem_mem hlt)).1
      have hset : ∀ extent ∈ padded.set region.axis (padded[region.axis] + region.lo + region.hi),
          1 ≤ extent ∧ FitsI64 extent := by
        intro extent hmem
        rcases List.mem_or_eq_of_mem_set hmem with hold | rfl
        · exact hpadded extent hold
        · exact ⟨by omega, hwide⟩
      refine (ih (by rw [List.length_set, hlength]) hset).mono fun widened h => ?_
      refine ⟨fun ε => ?_, List.forall_mem_cons.mpr ⟨⟨haxis, hlo, hhi⟩, h.2.1⟩, h.2.2⟩
      have hwidth : FitsI64 (region.lo + region.hi) := by
        unfold FitsI64 at hwide ⊢
        omega
      have hsum : FitsI64 (padded[region.axis] + (region.lo + region.hi)) := by
        rwa [← add_assoc]
      rw [padExtents, fetch_of_lt hlt, ok_bind, add64, exact64_of_fits hwidth, ok_bind, add64,
        exact64_of_fits hsum, ok_bind, ← add_assoc]
      exact h.1 ε

theorem sat_admitPads {bound : BoundPlan} {padded widened : List Int} {regions : List PadRegion}
    (hwidens : Widens padded regions widened) (seen : List Nat) :
    (admitPads bound seen padded regions).Sat fun result => result = widened ∧
      (regions.map PadRegion.axis).Nodup ∧
      ∀ region ∈ regions, region.axis ∉ seen ∧ bound.elementSize ≤ 8 ∧
        bound.padRegions.head?.map PadRegion.fillBits = some region.fillBits := by
  induction regions generalizing padded seen with
  | nil =>
      have hnil := hwidens Unit
      rw [padExtents, Outcome.ok.injEq] at hnil
      exact ⟨hnil, by simp, by simp⟩
  | cons region rest ih =>
      have hstep := hwidens Unit
      simp only [padExtents, bind_ok_iff, fetch_eq_ok, add64_eq_ok] at hstep
      obtain ⟨current, hcurrent, _, ⟨hwidth, rfl⟩, _, ⟨hsum, rfl⟩, -⟩ := hstep
      obtain ⟨hlt, rfl⟩ := List.getElem?_eq_some_iff.mp hcurrent
      rw [admitPads, sat_require_bind]
      intro hnew
      rw [not_or, not_or, not_not] at hnew
      obtain ⟨hseen, hsize, hfill⟩ := hnew
      refine sat_fetch_bind hlt (sat_exact64_bind hwidth (sat_exact64_bind hsum ?_))
      have hrest : Widens (padded.set region.axis (padded[region.axis] +
          (region.lo + region.hi))) rest widened := by
        intro ε
        have hstep := hwidens ε
        rwa [padExtents, fetch_of_lt hlt, ok_bind, add64, exact64_of_fits hwidth, ok_bind, add64,
          exact64_of_fits hsum, ok_bind] at hstep
      refine (ih hrest (region.axis :: seen)).mono fun result h => ?_
      obtain ⟨hresult, hnodup, hall⟩ := h
      refine ⟨hresult, ?_, ?_⟩
      · rw [List.map_cons, List.nodup_cons]
        refine ⟨fun hmem => ?_, hnodup⟩
        obtain ⟨other, hother, heq⟩ := List.mem_map.mp hmem
        exact (hall other hother).1 (heq ▸ List.mem_cons_self)
      · rw [List.forall_mem_cons]
        refine ⟨⟨hseen, by omega, hfill⟩, fun other hother => ?_⟩
        obtain ⟨hnotin, hrest⟩ := hall other hother
        exact ⟨fun hmem => hnotin (List.mem_cons_of_mem _ hmem), hrest⟩

/-! ### Dense views -/

theorem sat_strideDiffers {view : BufferView} {k : Nat} (hextent : k < view.extents.length)
    (hstride : k < view.strides.length) (expected : Int) :
    (view.strideDiffers k expected).Sat fun differs => differs = false →
      (view.extents[k] - 1) * view.strides[k] = (view.extents[k] - 1) * expected := by
  unfold BufferView.strideDiffers
  refine sat_fetch_bind hextent ?_
  split
  · rename_i hone
    intro _
    rw [hone, sub_self, zero_mul, zero_mul]
  · refine sat_fetch_bind hstride fun hsame => ?_
    rw [not_ne_iff.mp (of_decide_eq_false hsame)]

theorem sat_isDenseUpTo {view : BufferView} (hrank : view.extents.length = view.strides.length)
    {k : Nat} (hk : k ≤ view.extents.length) (expected : Int) :
    (view.isDenseUpTo k expected).Sat fun dense => dense = true →
      Strides.reach (view.axes.take k) + expected = expected * (view.extents.take k).prod := by
  induction k generalizing expected with
  | zero =>
      intro _
      simp [Strides.reach]
  | succ k ih =>
      have haxes : k < view.axes.length := by
        rw [BufferView.axes, List.length_map, List.length_zip]
        exact lt_min hk (hrank ▸ hk)
      have haxis : view.axes[k] = ⟨view.extents[k], view.strides[k]⟩ := by
        simp [BufferView.axes, entryAxis]
      have hreach : Strides.reach (view.axes.take (k + 1)) =
          (view.extents[k] - 1) * view.strides[k] + Strides.reach (view.axes.take k) := by
        rw [List.take_succ_eq_append_getElem haxes, haxis,
          Strides.reach_perm (List.perm_append_singleton _ _), Strides.reach]
      have hprod : (view.extents.take (k + 1)).prod =
          (view.extents.take k).prod * view.extents[k] := by
        rw [List.take_succ_eq_append_getElem hk, List.prod_append, List.prod_singleton]
      rw [BufferView.isDenseUpTo, sat_bind, hreach, hprod]
      refine (sat_strideDiffers hk (hrank ▸ hk) expected).mono fun differs hstep => ?_
      cases differs with
      | true => exact fun hdense => by cases hdense
      | false =>
          rw [if_neg Bool.false_ne_true]
          refine sat_fetch_bind hk ?_
          split
          · exact fun hdense => by cases hdense
          · rename_i next hnext
            obtain ⟨-, rfl⟩ := checked64_eq_some.mp hnext
            refine (ih (Nat.le_of_succ_le hk) _).mono fun dense hrest hdense => ?_
            have hinner := hrest hdense
            rw [hstep rfl]
            linear_combination hinner

/-- A dense view reaches as far as it has elements. -/
theorem sat_isDense {view : BufferView} (hrank : view.extents.length = view.strides.length) :
    view.isDense.Sat fun dense => dense = true →
      Strides.reach view.axes + 1 = view.extents.prod := by
  refine (sat_isDenseUpTo hrank (le_refl _) 1).mono fun dense h hdense => ?_
  have hlength : view.axes.length ≤ view.extents.length := by
    rw [BufferView.axes, List.length_map, List.length_zip]
    exact min_le_left _ _
  have hreach := h hdense
  rw [List.take_of_length_le hlength, List.take_length, one_mul] at hreach
  exact hreach

/-! ### The plan against the destination -/

/-- What the check against the destination says of the plan. -/
structure BoundPlan.WritesTo (bound : BoundPlan) (destination : BufferView) (bytes : Nat)
    (widened : List Int) : Prop where
  size_eq : bound.elementSize = destination.elementSize
  total_pos : 0 < bound.totalBytes
  total_eq : bytes = toSize bound.totalBytes
  widens : Widens bound.extents bound.padRegions widened
  regions : ∀ region ∈ bound.padRegions,
    region.axis < bound.extents.length ∧ 0 ≤ region.lo ∧ 0 ≤ region.hi
  fits : ∀ extent ∈ widened, FitsI64 extent
  forward : Strides.Forward ((widened.zip bound.dstStrides).map entryAxis)

theorem sat_checkPlanAgainstDestination {bound : BoundPlan} (hbound : bound.Machine)
    (hextents : ∀ extent ∈ bound.extents, 1 ≤ extent) {destination : BufferView}
    (hrank : destination.extents.length = destination.strides.length) (bytes : Nat) :
    (checkPlanAgainstDestination bound destination bytes).Sat fun _ =>
      ∃ widened, bound.WritesTo destination bytes widened := by
  unfold checkPlanAgainstDestination
  rw [sat_require_bind]
  intro hsize
  rw [sat_bind]
  refine (sat_isDense hrank).mono fun _ _ => ?_
  rw [sat_require_bind]
  intro _
  rw [sat_require_bind]
  intro hpos
  rw [sat_require_bind]
  intro htotal
  rw [sat_bind]
  refine (sat_checkedPads rfl (fun extent hmem => ⟨hextents extent hmem,
    hbound.extents extent hmem⟩) bound.padRegions).mono fun widened hwidened => ?_
  obtain ⟨hwidens, hregions, hall⟩ := hwidened
  rw [sat_bind]
  refine (sat_planReach _ _ (fun entry hmem => hall _ (List.of_mem_zip hmem).1)
    (by decide)).mono fun reach hreach => ?_
  refine sat_checkedSizeOr_bind fun _ => sat_require fun _ => ?_
  exact ⟨widened, hsize, hpos, htotal, hwidens, hregions, fun extent hmem => (hall extent hmem).2,
    hreach.1⟩

/-! ### The admitted plan -/

section Admitted

variable {bound : BoundPlan} {source destination : BufferView} {widened : List Int}
  {sourceBytes bytes : Nat}

theorem forall_attachRegions {P : WalkAxis → Prop} {axes : List WalkAxis}
    {regions : List PadRegion} (haxes : ∀ axis ∈ axes, P axis)
    (hregions : ∀ region ∈ regions, ∀ axis, P axis → P (region.attach axis)) :
    ∀ axis ∈ attachRegions axes regions, P axis := by
  induction regions generalizing axes with
  | nil => exact haxes
  | cons region rest ih =>
      refine ih ?_ fun other hother => hregions other (by simp [hother])
      intro axis hmem
      obtain ⟨k, hk⟩ := List.mem_iff_getElem?.mp hmem
      rw [List.getElem?_modify] at hk
      obtain ⟨old, hold, rfl⟩ := Option.map_eq_some_iff.mp hk
      have hP := haxes old (List.mem_of_getElem? hold)
      split
      · exact hregions region (by simp) old hP
      · exact hP

/-- The padded extents of the walk are the widened ones. -/
theorem widened_eq (hsrc : bound.srcStrides.length = bound.extents.length)
    (hdst : bound.dstStrides.length = bound.extents.length)
    (hwidens : Widens bound.extents bound.padRegions widened)
    (hnodup : (bound.padRegions.map PadRegion.axis).Nodup) :
    widened = bound.walkAxes.map WalkAxis.padded := by
  have hzero : ∀ axis ∈ bound.bareAxes, axis.lo = 0 ∧ axis.hi = 0 := by
    intro axis hmem
    obtain ⟨entry, -, rfl⟩ := List.mem_map.mp hmem
    exact ⟨rfl, rfl⟩
  have hbare : bound.bareAxes.map WalkAxis.padded = bound.extents := by
    rw [← (BoundPlan.map_bareAxes hsrc hdst).1]
    refine List.map_congr_left fun axis hmem => ?_
    obtain ⟨hlo, hhi⟩ := hzero axis hmem
    rw [WalkAxis.padded, hlo, hhi, add_zero, add_zero]
  have hrun := hwidens Unit
  rw [← hbare] at hrun
  exact padExtents_eq_ok (fun region _ axis haxis => hzero axis (List.mem_of_getElem? haxis))
    hnodup hrun

theorem targetAxes_eq (hsrc : bound.srcStrides.length = bound.extents.length)
    (hdst : bound.dstStrides.length = bound.extents.length)
    (hwidened : widened = bound.walkAxes.map WalkAxis.padded) :
    (widened.zip bound.dstStrides).map entryAxis = bound.targetAxes := by
  rw [hwidened, ← (BoundPlan.map_walkAxes hsrc hdst).2.2, List.zip_map', List.map_map]
  rfl

theorem sourceAxes_eq (hsrc : bound.srcStrides.length = bound.extents.length)
    (hdst : bound.dstStrides.length = bound.extents.length) :
    (bound.extents.zip bound.srcStrides).map entryAxis =
      bound.walkAxes.map WalkAxis.source := by
  obtain ⟨hextents, hstrides, -⟩ := BoundPlan.map_walkAxes hsrc hdst
  rw [← hextents, ← hstrides, List.zip_map', List.map_map]
  rfl

/-- The checks together admit the plan. -/
theorem BoundPlan.ReadsFrom.admitted (hreads : bound.ReadsFrom source sourceBytes)
    (hwrites : bound.WritesTo destination bytes widened) (hbound : bound.Machine)
    (hnodup : (bound.padRegions.map PadRegion.axis).Nodup)
    (hpattern : ∀ region ∈ bound.padRegions, bound.elementSize ≤ 8)
    (hcells : widened.prod * bound.elementSize = bound.totalBytes) {span : Nat}
    (hphysical : ({ destination with extents := widened, strides := bound.dstStrides } :
      BufferView).Spans span) (hspan : span = toSize bound.totalBytes) : bound.Admitted := by
  have hwidened := widened_eq hreads.srcRank hreads.dstRank hwrites.widens hnodup
  have htarget := targetAxes_eq hreads.srcRank hreads.dstRank hwidened
  have hsource := sourceAxes_eq hreads.srcRank hreads.dstRank
  have hextents := (BoundPlan.map_walkAxes hreads.srcRank hreads.dstRank).1
  have haxes : ({ destination with extents := widened, strides := bound.dstStrides } :
      BufferView).axes = bound.targetAxes := htarget
  have hlength : widened.length = bound.dstStrides.length := hphysical.rank
  have hcellsEq : bound.cells * bound.elementSize = bound.totalBytes := by
    rw [← hcells, BoundPlan.cells, ← htarget, cells_eq_prod,
      List.map_fst_zip (by omega)]
  have htotal := toSize_of_nonneg hwrites.total_pos.le hbound.total
  refine ⟨hreads.rank, hreads.srcRank, hreads.dstRank, hreads.size_pos, hbound.size, ?_, ?_, ?_,
    haxes ▸ hphysical.nested, ?_, hcellsEq.symm, hbound.total,
    fun region hmem => (hwrites.regions region hmem).1, hnodup, hpattern,
    fun ε => hwidened ▸ hwrites.widens ε⟩
  · refine forall_attachRegions ?_ fun region hmem axis haxis => ?_
    · intro axis hmem
      obtain ⟨entry, hentry, rfl⟩ := List.mem_map.mp hmem
      exact ⟨hreads.extents _ (List.of_mem_zip hentry).1, le_refl 0, le_refl 0⟩
    · exact ⟨haxis.1, (hwrites.regions region hmem).2⟩
  · intro axis hmem
    have hforward := hreads.forward
    rw [hsource] at hforward
    exact (hforward _ (List.mem_map_of_mem hmem)).2
  · intro axis hmem
    have hforward := hwrites.forward
    rw [htarget] at hforward
    exact (hforward _ (List.mem_map_of_mem hmem)).2
  · have hbytes := hphysical.bytes_eq
    rw [haxes, hspan, htotal, ← hcellsEq] at hbytes
    have hes : (0 : Int) < bound.elementSize := by exact_mod_cast hreads.size_pos
    have hsize : (destination.elementSize : Int) = bound.elementSize := by
      exact_mod_cast hwrites.size_eq.symm
    rw [show ({ destination with extents := widened, strides := bound.dstStrides } :
      BufferView).elementSize = destination.elementSize from rfl, hsize] at hbytes
    exact mul_right_cancel₀ hes.ne' hbytes

theorem sourceReach_eq (hreads : bound.ReadsFrom source sourceBytes) :
    (bound.lastRead + 1) * bound.elementSize ≤ sourceBytes := by
  have hfootprint := hreads.footprint
  rw [sourceAxes_eq hreads.srcRank hreads.dstRank, ← Strides.offset_lastIndex,
    Strides.lastIndex, List.map_map] at hfootprint
  rw [BoundPlan.lastRead, srcOffset_eq]
  exact hfootprint

end Admitted

end SymReloc
