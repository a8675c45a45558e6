import SymReloc.Strides

/-!
# Tight axes

Axes are tight when, from the innermost outwards, every stride is the product of the extents
below it.  Axes number the cells of an interval one to one exactly when some order of them is
tight: where a number is not reached by the innermost axis, only the next stride can reach it.
-/

namespace SymReloc.Strides

/-- From the innermost axis outwards, each stride is the extent of what is below it; an axis of
    extent one may have any stride. -/
def Tight (below : Int) : List Axis → Prop
  | [] => True
  | axis :: axes => (axis.extent = 1 ∨ axis.stride = below) ∧ Tight (below * axis.extent) axes

instance decidableTight (below : Int) : (axes : List Axis) → Decidable (Tight below axes)
  | [] => isTrue trivial
  | axis :: axes =>
      have := decidableTight (below * axis.extent) axes
      inferInstanceAs (Decidable ((axis.extent = 1 ∨ axis.stride = below) ∧ _))

variable {axis : Axis} {axes axes' order : List Axis} {below : Int}

/-! ### Tight axes leave no gap -/

theorem Tight.nested (h : Tight below axes) (hforward : Forward axes) (hbelow : 0 < below) :
    Nested (below - 1) axes ∧ below * cells axes = below - 1 + reach axes + 1 := by
  induction axes generalizing below with
  | nil => simp [Nested, cells, reach]
  | cons axis axes ih =>
      rw [forward_cons] at hforward
      obtain ⟨hnested, hdense⟩ := ih h.2 hforward.2 (mul_pos hbelow (by omega))
      have hlast : below - 1 + (axis.extent - 1) * axis.stride = below * axis.extent - 1 := by
        rcases h.1 with hone | hstride
        · rw [hone]
          ring
        · rw [hstride]
          ring
      refine ⟨⟨h.1.imp_right fun hstride => by omega, hlast ▸ hnested⟩, ?_⟩
      rw [cells, reach, ← mul_assoc, hdense]
      linarith

theorem Tight.bijOn (h : Tight 1 order) (hperm : order.Perm axes) (hforward : Forward axes) :
    Set.BijOn (offset axes) {index | InBox axes index} (Set.Ico 0 (cells axes)) := by
  obtain ⟨hnested, hdense⟩ := h.nested (hforward.perm hperm.symm) one_pos
  refine bijOn_offset hperm hnested hforward ?_
  rw [← cells_perm hperm, ← reach_perm hperm]
  omega

/-! ### Where there is no gap the axes are tight -/

/-- The offsets are the multiples of a number below a bound, each of one index tuple. -/
def Covers (below last : Int) (axes : List Axis) : Prop :=
  Set.BijOn (offset axes) {index | InBox axes index} {c | 0 ≤ c ∧ c < last ∧ below ∣ c}

theorem Covers.perm {last : Int} (h : Covers below last axes) (hperm : axes'.Perm axes) :
    Covers below last axes' := by
  obtain ⟨f, hinj, hf⟩ := exists_reindex hperm
  obtain ⟨g, -, hg⟩ := exists_reindex hperm.symm
  refine ⟨fun index hindex => ?_, fun index hindex index' hindex' heq => ?_, fun c hc => ?_⟩
  · rw [← (hf index hindex).2]
    exact h.mapsTo (hf index hindex).1
  · refine hinj hindex hindex' (h.injOn (hf index hindex).1 (hf index' hindex').1 ?_)
    rw [(hf index hindex).2, (hf index' hindex').2, heq]
  · obtain ⟨index, hindex, rfl⟩ := h.surjOn hc
    exact ⟨g index, (hg index hindex).1, (hg index hindex).2⟩

theorem inBox_zero (hforward : Forward axes) : InBox axes (axes.map fun _ => 0) := by
  induction axes with
  | nil => exact .nil
  | cons axis axes ih =>
      rw [forward_cons] at hforward
      exact .cons ⟨le_refl 0, by dsimp only; omega⟩ (ih hforward.2)

theorem offset_zero (axes : List Axis) : offset axes (axes.map fun _ => 0) = 0 := by
  induction axes with
  | nil => rfl
  | cons axis axes ih => simp only [List.map_cons, offset, ih, zero_mul, add_zero]

/-- The stride of an axis with more than one index is an offset, and not that of the origin. -/
theorem Covers.stride_of_cons {last : Int} (h : Covers below last (axis :: axes))
    (hforward : Forward (axis :: axes)) (hextent : axis.extent ≠ 1) :
    0 < axis.stride ∧ axis.stride < last ∧ below ∣ axis.stride := by
  have hextents := (forward_cons.mp hforward).1.1
  have hrest := inBox_zero (forward_cons.mp hforward).2
  have hunit : InBox (axis :: axes) (1 :: axes.map fun _ => 0) := .cons ⟨by omega, by omega⟩ hrest
  have horigin : InBox (axis :: axes) (0 :: axes.map fun _ => 0) := .cons ⟨by omega, by omega⟩ hrest
  have hmem := h.mapsTo hunit
  have hne : offset (axis :: axes) (1 :: axes.map fun _ => 0) ≠
      offset (axis :: axes) (0 :: axes.map fun _ => 0) := fun heq => by
    have := h.injOn hunit horigin heq
    simp at this
  simp only [offset, offset_zero, one_mul, zero_mul, add_zero] at hmem hne
  exact ⟨lt_of_le_of_ne hmem.1 (Ne.symm hne), hmem.2⟩

/-- An axis that moves by no more than a positive offset that the axes reach. -/
theorem exists_stride_le (hforward : Forward axes) {index : List Int} (hbox : InBox axes index)
    (hpos : 0 < offset axes index) :
    ∃ axis ∈ axes, axis.extent ≠ 1 ∧ axis.stride ≤ offset axes index := by
  induction hbox with
  | nil => exact absurd hpos (lt_irrefl 0)
  | @cons axis i axes index hi hbox ih =>
      rw [forward_cons] at hforward
      have hrest := offset_nonneg hforward.2 hbox
      simp only [offset] at hpos ⊢
      by_cases hzero : i = 0
      · subst hzero
        rw [zero_mul, zero_add] at hpos ⊢
        obtain ⟨found, hmem, hfound⟩ := ih hforward.2 hpos
        exact ⟨found, List.mem_cons_of_mem _ hmem, hfound⟩
      · refine ⟨axis, List.mem_cons_self, by omega, ?_⟩
        have hle := mul_le_mul_of_nonneg_right (show 1 ≤ i by omega) hforward.1.2
        linarith

/-- Some axis moves by one multiple. -/
theorem Covers.exists_unit {last : Int} (h : Covers below last axes) (hforward : Forward axes)
    (hbelow : 0 < below) (hextents : ∃ axis ∈ axes, axis.extent ≠ 1) :
    ∃ axis ∈ axes, axis.extent ≠ 1 ∧ axis.stride = below ∧ below < last := by
  have hstride : ∀ axis ∈ axes, axis.extent ≠ 1 →
      0 < axis.stride ∧ axis.stride < last ∧ below ∣ axis.stride := fun axis hmem hextent =>
    (h.perm (List.perm_cons_erase hmem).symm).stride_of_cons
      (hforward.perm (List.perm_cons_erase hmem)) hextent
  obtain ⟨axis, hmem, hextent⟩ := hextents
  obtain ⟨hpos, hlast, hdvd⟩ := hstride axis hmem hextent
  have hbound := lt_of_le_of_lt (Int.le_of_dvd hpos hdvd) hlast
  obtain ⟨index, hbox, hoffset⟩ := h.surjOn (show below ∈ {c | 0 ≤ c ∧ c < last ∧ below ∣ c} from
    ⟨by omega, hbound, dvd_refl below⟩)
  obtain ⟨found, hfound, hne, hle⟩ := exists_stride_le hforward hbox (by omega)
  obtain ⟨hpos', -, hdvd'⟩ := hstride found hfound hne
  exact ⟨found, hfound, hne, le_antisymm (hoffset ▸ hle) (Int.le_of_dvd hpos' hdvd'), hbound⟩

/-- The multiples below an offset of the axes above the innermost one are reached from smaller
    offsets, so that the offset itself is a multiple of what the innermost axis reaches. -/
theorem Covers.dvd_offset {last : Int} (h : Covers below last (axis :: axes))
    (hforward : Forward (axis :: axes)) (hbelow : 0 < below) (hstride : axis.stride = below)
    (n : Nat) : ∀ index, InBox axes index → offset axes index ≤ n →
      below * axis.extent ∣ offset axes index := by
  have hextent := (forward_cons.mp hforward).1.1
  induction n with
  | zero =>
      intro index hbox hle
      have hnonneg := offset_nonneg (forward_cons.mp hforward).2 hbox
      have hzero : offset axes index = 0 := by omega
      rw [hzero]
      exact dvd_zero _
  | succ n ih =>
      intro index hbox hle
      have horigin : InBox (axis :: axes) (0 :: index) := .cons ⟨le_refl 0, by omega⟩ hbox
      have hmem := h.mapsTo horigin
      simp only [offset, zero_mul, zero_add] at hmem
      obtain ⟨hnonneg, hlast, k, hk⟩ := hmem
      have hdiv := Int.mul_ediv_add_emod k axis.extent
      have hr := Int.emod_nonneg k (show axis.extent ≠ 0 by omega)
      have hr' := Int.emod_lt_of_pos k (show 0 < axis.extent by omega)
      generalize hq : k / axis.extent = q at hdiv
      generalize k % axis.extent = r at hdiv hr hr'
      have hsplit : offset axes index = r * below + below * (axis.extent * q) := by
        rw [hk, ← hdiv]
        ring
      rcases eq_or_lt_of_le hr with rfl | hpos
      · exact ⟨q, by rw [hsplit]; ring⟩
      · have hk0 : 0 ≤ k := nonneg_of_mul_nonneg_right (hk ▸ hnonneg) hbelow
        have hq0 : 0 ≤ q := hq ▸ Int.ediv_nonneg hk0 (by omega)
        have hlower : 0 ≤ below * (axis.extent * q) :=
          mul_nonneg (by omega) (mul_nonneg (by omega) hq0)
        have hgap : 0 < r * below := mul_pos hpos hbelow
        obtain ⟨lower, hbox', heq⟩ := h.surjOn
          (show below * (axis.extent * q) ∈ {c | 0 ≤ c ∧ c < last ∧ below ∣ c} from
            ⟨hlower, by omega, dvd_mul_right _ _⟩)
        cases hbox' with
        | @cons _ j _ rest hj hrest =>
            rw [offset, hstride] at heq
            have hj0 : 0 ≤ j * below := mul_nonneg hj.1 (by omega)
            obtain ⟨p, hp⟩ := ih rest hrest (by omega)
            -- the multiple itself is not moved by the innermost axis
            have hjDvd : axis.extent ∣ j := ⟨q - p, by
              refine mul_left_cancel₀ (a := below) (by omega) ?_
              rw [hp] at heq
              linarith⟩
            have hjzero := Int.eq_zero_of_dvd_of_nonneg_of_lt hj.1 hj.2 hjDvd
            have hmoved : InBox (axis :: axes) (r :: rest) := .cons ⟨hr, hr'⟩ hrest
            have hsame := h.injOn hmoved horigin (by
              simp only [offset, hstride, zero_mul, zero_add]
              rw [hsplit, ← heq, hjzero]
              ring)
            have := (List.cons.inj hsame).1
            omega

/-- What the axes above the innermost one reach: the numbers it does not reach by itself. -/
theorem Covers.tail {last : Int} (h : Covers below last (axis :: axes))
    (hforward : Forward (axis :: axes)) (hbelow : 0 < below) (hstride : axis.stride = below) :
    Covers (below * axis.extent) last axes := by
  have hextent := (forward_cons.mp hforward).1.1
  have horigin : ∀ index, InBox axes index → InBox (axis :: axes) (0 :: index) :=
    fun index hbox => .cons ⟨le_refl 0, by omega⟩ hbox
  have hoffset : ∀ index, offset (axis :: axes) (0 :: index) = offset axes index := fun index => by
    rw [offset, zero_mul, zero_add]
  have hdvd : ∀ index, InBox axes index → below * axis.extent ∣ offset axes index :=
    fun index hbox => h.dvd_offset hforward hbelow hstride (offset axes index).toNat index hbox
      (Int.self_le_toNat _)
  refine ⟨fun index hbox => ?_, fun index hbox index' hbox' heq => ?_, fun c hc => ?_⟩
  · have hmem := h.mapsTo (horigin index hbox)
    rw [hoffset] at hmem
    exact ⟨hmem.1, hmem.2.1, hdvd index hbox⟩
  · have hsame := h.injOn (horigin index hbox) (horigin index' hbox')
      (by rw [hoffset, hoffset, heq])
    exact (List.cons.inj hsame).2
  · obtain ⟨hc0, hclast, hcdvd⟩ := hc
    obtain ⟨index, hindex, heq⟩ := h.surjOn (show c ∈ {c | 0 ≤ c ∧ c < last ∧ below ∣ c} from
      ⟨hc0, hclast, dvd_of_mul_right_dvd hcdvd⟩)
    cases hindex with
    | @cons _ j _ rest hj hrest =>
        rw [offset, hstride] at heq
        have hjDvd : below * axis.extent ∣ below * j :=
          (Int.dvd_add_left (hdvd rest hrest)).mp (by rw [mul_comm below j, heq]; exact hcdvd)
        have hjzero := Int.eq_zero_of_dvd_of_nonneg_of_lt hj.1 hj.2
          ((mul_dvd_mul_iff_left (by omega)).mp hjDvd)
        exact ⟨rest, hrest, by rw [← heq, hjzero, zero_mul, zero_add]⟩

theorem tight_of_extents (h : ∀ axis ∈ axes, axis.extent = 1) : Tight below axes := by
  induction axes generalizing below with
  | nil => trivial
  | cons axis axes ih =>
      exact ⟨.inl (h axis List.mem_cons_self), ih fun a ha => h a (List.mem_cons_of_mem _ ha)⟩

theorem Covers.exists_tight {last : Int} (h : Covers below last axes) (hforward : Forward axes)
    (hbelow : 0 < below) : ∃ order, order.Perm axes ∧ Tight below order := by
  generalize hlength : axes.length = n
  induction n generalizing axes below with
  | zero =>
      rw [List.length_eq_zero_iff] at hlength
      exact ⟨axes, List.Perm.refl _, hlength ▸ trivial⟩
  | succ n ih =>
      by_cases hextents : ∃ axis ∈ axes, axis.extent ≠ 1
      · obtain ⟨axis, hmem, hne, hstride, -⟩ := h.exists_unit hforward hbelow hextents
        have hperm := List.perm_cons_erase hmem
        have hforward' := hforward.perm hperm
        have hextent := (forward_cons.mp hforward').1.1
        have hrest := (h.perm hperm.symm).tail hforward' hbelow hstride
        obtain ⟨order, horder, htight⟩ := ih hrest (forward_cons.mp hforward').2
          (mul_pos hbelow (by omega)) (by rw [List.length_erase_of_mem hmem, hlength]; omega)
        exact ⟨axis :: order, (horder.cons axis).trans hperm.symm, .inr hstride, htight⟩
      · push Not at hextents
        exact ⟨axes, List.Perm.refl _, tight_of_extents hextents⟩

/-- Axes number the cells of an interval one to one where some order of them is tight and they
    count its cells, and only there. -/
theorem bijOn_iff_tight (hforward : Forward axes) {last : Int} :
    Set.BijOn (offset axes) {index | InBox axes index} (Set.Ico 0 last) ↔
      cells axes = last ∧ ∃ order, order.Perm axes ∧ Tight 1 order := by
  constructor
  · intro h
    have hcovers : Covers 1 last axes := by
      have hset : {c : Int | 0 ≤ c ∧ c < last ∧ (1 : Int) ∣ c} = Set.Ico 0 last := by
        ext c
        simp
      rw [Covers, hset]
      exact h
    obtain ⟨order, hperm, htight⟩ := hcovers.exists_tight hforward one_pos
    refine ⟨?_, order, hperm, htight⟩
    have himage := (htight.bijOn hperm hforward).image_eq.symm.trans h.image_eq
    have hcells := hforward.cells_pos
    have horigin := h.mapsTo (inBox_zero hforward)
    rw [offset_zero] at horigin
    have hlast : last - 1 ∈ Set.Ico 0 (cells axes) :=
      himage ▸ ⟨by have := horigin.2; omega, by omega⟩
    have hcell : cells axes - 1 ∈ Set.Ico 0 last := himage ▸ ⟨by omega, by omega⟩
    have := hlast.2
    have := hcell.2
    omega
  · rintro ⟨rfl, order, hperm, htight⟩
    exact htight.bijOn hperm hforward

end SymReloc.Strides
