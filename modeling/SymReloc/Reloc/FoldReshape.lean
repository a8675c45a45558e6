import SymReloc.Reloc.Coordinates

/-!
# Folding a reshape

The loop of `foldReshape` takes the old axes and the targets apart into groups of one product.
A group grows until its products are provably the same, or until its one axis divides into the
targets; then it is kept, split or merged.  Whatever the loop makes is a regrouping of the view
of the plan (`Regroup`), and each old axis has its coordinate in the new ones; so a reshape of
the plan reads what a reshape of the tensor has (`Traces.reshape`).
-/

namespace SymReloc

open SymExpr RowMajor PaddedView
open PlanBuilder (Entry Group Reshaped)

variable {α : Type} {σ : Name → Int} {folding : Folding α} {cells : Int}
  {plan plan' : PlanBuilder α} {view views news : List ViewAxis} {tensor tensor' : Tensor α}
  {olds restOld : List Entry} {targets restTargets : List SymExpr} {sizes : List Int}

/-! ### Sizes -/

section
variable {expr : SymExpr} {exprs : List SymExpr} {values : List Int}

/-- Words under symbol values. -/
def Words (σ : Name → Int) : List SymExpr → List Int → Prop :=
  List.Forall₂ fun expr value => expr.evalWord σ = some value

theorem Sizes.words (h : Sizes σ targets sizes) : Words σ targets sizes :=
  h.imp fun _ _ => evalWord_of_evalChecked

theorem evalWord_foldl_mul {first : Int} (hfirst : expr.evalWord σ = some first)
    (hone : 1 ≤ first) (h : Words σ exprs values) (hpos : Positive values)
    (hfits : FitsI64 (first * values.prod)) :
    (exprs.foldl PlanBuilder.mul expr).evalWord σ = some (first * values.prod) := by
  induction h generalizing expr first with
  | nil => rwa [List.prod_nil, mul_one]
  | @cons head value exprs values hhead _ ih =>
      rw [positive_cons] at hpos
      rw [List.prod_cons] at hfits ⊢
      rw [← mul_assoc] at hfits ⊢
      have hproduct : 1 ≤ first * value := one_le_mul_of_one_le_of_one_le hone hpos.1
      have hle : first * value ≤ first * value * values.prod :=
        le_mul_of_one_le_right (by omega) hpos.2.one_le_prod
      refine ih (evalWord_mul hfirst hhead ?_) hproduct hpos.2 hfits
      unfold FitsI64 at hfits ⊢
      omega

/-- The product of a run of extents, as growing a group builds it. -/
def PlanBuilder.product : List SymExpr → SymExpr
  | [] => .constant 1
  | head :: rest => rest.foldl mul head

theorem PlanBuilder.product_append (h : exprs ≠ []) (expr : SymExpr) :
    product (exprs ++ [expr]) = mul (product exprs) expr := by
  cases exprs with
  | nil => exact absurd rfl h
  | cons head rest => exact List.foldl_append

theorem evalWord_product (h : Words σ exprs values) (hpos : Positive values)
    (hfits : FitsI64 values.prod) :
    (PlanBuilder.product exprs).evalWord σ = some values.prod := by
  cases h with
  | nil => rfl
  | cons hhead htail =>
      rw [positive_cons] at hpos
      rw [List.prod_cons] at hfits ⊢
      exact evalWord_foldl_mul hhead hpos.1 htail hpos.2 hfits

end

theorem evalWord_of_proven {lhs rhs : SymExpr} (h : proveEqual lhs rhs = .proven) :
    lhs.evalWord σ = rhs.evalWord σ := by
  unfold proveEqual at h
  split at h
  · exact areLogicallyEqual_evalWord ‹_›
  · split at h
    · split at h
      · rename_i heq
        rw [heq]
      · cases h
    · cases h

/-- A product of positive sizes is no larger than that of more of them. -/
theorem prod_le_prod_append {left right : List Int} (h : Positive (left ++ right)) :
    left.prod ≤ (left ++ right).prod ∧ right.prod ≤ (left ++ right).prod := by
  rw [positive_append] at h
  have hleft := h.1.one_le_prod
  have hright := h.2.one_le_prod
  rw [List.prod_append]
  exact ⟨le_mul_of_one_le_right (by omega) hright, le_mul_of_one_le_left (by omega) hleft⟩

theorem FitsI64.of_le {value bound : Int} (h : FitsI64 bound) (h0 : 1 ≤ value)
    (hle : value ≤ bound) :
    FitsI64 value := by
  unfold FitsI64 at h ⊢
  omega

/-! ### A group -/

/-- An old axis with its pad, under symbol values. -/
structure EntryDenotes (σ : Name → Int) (cells : Int) (entry : Entry) (axis : ViewAxis) : Prop where
  denotes : AxisDenotes σ cells entry.axis axis
  pad : PadDenotes σ entry.pad axis

theorem EntryDenotes.padded {entry : Entry} {axis : ViewAxis} (h : EntryDenotes σ cells entry axis)
    (hfits : FitsI64 axis.padded) : entry.padded.evalWord σ = some axis.padded := by
  have hextent := evalWord_of_evalChecked h.denotes.extent
  have hpad := h.pad
  unfold Entry.padded
  cases hentry : entry.pad with
  | none =>
      rw [hentry] at hpad
      rw [ViewAxis.Unpadded.padded_eq hpad]
      exact hextent
  | some pad =>
      rw [hentry] at hpad
      have hone := h.denotes.sound.one_le
      have hlo := h.denotes.sound.lo_nonneg
      have hhi := h.denotes.sound.hi_nonneg
      unfold ViewAxis.padded at hfits ⊢
      have hinner : FitsI64 (axis.extent + axis.lo) := by
        unfold FitsI64 at hfits ⊢
        omega
      have hsum := evalWord_add (evalWord_add hextent hpad.1 hinner) hpad.2
        (by rwa [add_comm axis.extent])
      rwa [add_comm axis.extent] at hsum

theorem words_padded (h : List.Forall₂ (EntryDenotes σ cells) olds views)
    (hpos : Positive (shape views)) (hfits : FitsI64 (shape views).prod) :
    Words σ (olds.map Entry.padded) (shape views) := by
  rw [Words, shape, List.forall₂_map_left_iff, List.forall₂_map_right_iff, List.forall₂_iff_get]
  refine ⟨h.length_eq, fun k hk hk' => ?_⟩
  refine ((List.forall₂_iff_get.mp h).2 k hk hk').padded ?_
  have hmem : (views.get ⟨k, hk'⟩).padded ∈ shape views :=
    List.mem_map_of_mem (List.getElem_mem hk')
  exact hfits.of_le (hpos _ hmem) (hpos.le_prod hmem)

/-- The size that a symbolic factor stands for; without one it is 1. -/
def FactorDenotes (σ : Name → Int) (symbolic : Option SymExpr) (size : Int) : Prop :=
  match symbolic with
  | none => size = 1
  | some expr => expr.evalChecked σ = some size

/-- The constants and the symbolic factor make up the product of the sizes. -/
theorem splitFactors_sound {product product' first : Int} {symbolic symbolic' : Option SymExpr}
    (h : PlanBuilder.splitFactors targets product symbolic = some (product', symbolic'))
    (hsizes : Sizes σ targets sizes) (hpos : Positive sizes)
    (hfirst : FactorDenotes σ symbolic first) (hone : 1 ≤ product) (hone' : 1 ≤ first)
    (hfits : FitsI64 (product * first * sizes.prod)) :
    ∃ last, FactorDenotes σ symbolic' last ∧ 1 ≤ product' ∧ 1 ≤ last ∧
      product' * last = product * first * sizes.prod := by
  induction hsizes generalizing product symbolic first with
  | nil =>
      cases h
      exact ⟨first, hfirst, hone, hone', by rw [List.prod_nil, mul_one]⟩
  | @cons target size targets sizes hsize _ ih =>
      rw [positive_cons] at hpos
      rw [List.prod_cons] at hfits ⊢
      have hrest := hpos.2.one_le_prod
      by_cases hconstant : ∃ value, target = .constant value
      · obtain ⟨value, rfl⟩ := hconstant
        obtain rfl := evalChecked_constant rfl hsize
        have hregroup : product * first * (size * sizes.prod) =
            product * size * first * sizes.prod := by ring
        have hproduct : 1 ≤ product * size := one_le_mul_of_one_le_of_one_le hone hpos.1
        have hle : product * size ≤ product * size * (first * sizes.prod) :=
          le_mul_of_one_le_right (by omega) (one_le_mul_of_one_le_of_one_le hone' hrest)
        rw [hregroup] at hfits ⊢
        rw [← mul_assoc] at hle
        rw [PlanBuilder.splitFactors, wrap64_of_fits (hfits.of_le hproduct hle)] at h
        exact ih h hpos.2 hfirst hproduct hone' hfits
      · have hsymbolic : symbolic = none ∧
            PlanBuilder.splitFactors targets product (some target) =
            some (product', symbolic') := by
          cases target with
          | constant value => exact absurd ⟨value, rfl⟩ hconstant
          | symbol name =>
              cases symbolic with
              | none => exact ⟨rfl, h⟩
              | some other => cases h
          | binary opcode lhs rhs =>
              cases symbolic with
              | none => exact ⟨rfl, h⟩
              | some other => cases h
        obtain ⟨rfl, hsplit⟩ := hsymbolic
        have hfirst : first = 1 := hfirst
        subst hfirst
        rw [mul_one, ← mul_assoc] at hfits ⊢
        exact ih hsplit hpos.2 hsize hone hpos.1 hfits

/-- Targets that match a split have the extent for their product, if the divisor divides it. -/
theorem matchesSplit_sound {extent : SymExpr} {value : Int}
    {divisor : Option { divisor : Int // 1 < divisor }}
    (h : PlanBuilder.matchesSplit extent targets = some divisor)
    (hextent : extent.evalWord σ = some value) (hsizes : Sizes σ targets sizes)
    (hpos : Positive sizes) (hfits : FitsI64 sizes.prod)
    (hdivides : ∀ d ∈ divisor, d.1 ∣ value) : value = sizes.prod := by
  unfold PlanBuilder.matchesSplit at h
  cases hsplit : PlanBuilder.splitFactors targets 1 none with
  | none =>
      rw [hsplit] at h
      cases h
  | some factors =>
      obtain ⟨product, symbolic⟩ := factors
      rw [hsplit] at h
      obtain ⟨last, hlast, hone, hlast1, hproduct⟩ := splitFactors_sound hsplit hsizes hpos
        (show FactorDenotes σ none 1 from rfl) le_rfl le_rfl (by rwa [one_mul, one_mul])
      rw [one_mul, one_mul] at hproduct
      cases symbolic with
      | none =>
          have hlast : last = 1 := hlast
          dsimp only at h
          split at h
          · rename_i hconstant
            rw [hconstant] at hextent
            rw [(checked64_eq_some.mp hextent).2, ← hproduct, hlast, mul_one]
          · cases h
      | some factor =>
          have hfactor : areLogicallyEqual factor (getSimplifiedBinaryExpr wrap64 .div extent
              (.constant product)) = true ∧
                divisor = if h : 1 < product then some ⟨product, h⟩ else none := by
            cases extent with
            | constant _ => cases h
            | symbol _ =>
                dsimp only at h
                split at h
                · rename_i hequal
                  exact ⟨hequal, (Option.some.inj h).symm⟩
                · cases h
            | binary _ _ _ =>
                dsimp only at h
                split at h
                · rename_i hequal
                  exact ⟨hequal, (Option.some.inj h).symm⟩
                · cases h
          obtain ⟨hequal, hdivisor⟩ := hfactor
          have hconstant : (SymExpr.constant product).evalWord σ = some product := by
            refine checked64_eq_some.mpr ⟨hfits.of_le hone ?_, rfl⟩
            rw [← hproduct]
            exact le_mul_of_one_le_right (by omega) (by omega)
          have hquotient := @getSimplifiedBinaryExpr_evalWord σ .div _ _ _ _ _ hextent hconstant
            (if_neg (by omega))
          rw [← areLogicallyEqual_evalWord hequal, evalWord_of_evalChecked hlast,
            Option.some.injEq, Int.fdiv_eq_ediv_of_nonneg _ (by omega)] at hquotient
          have hdvd : product ∣ value := by
            by_cases hlt : 1 < product
            · rw [dif_pos hlt] at hdivisor
              exact hdivides _ hdivisor
            · rw [show product = 1 by omega]
              exact one_dvd value
          obtain ⟨quotient, rfl⟩ := hdvd
          have hfitsQuotient : FitsI64 quotient := by
            have hextentFits := fits_of_evalWord hextent
            unfold FitsI64 at hextentFits ⊢
            by_cases hsign : 0 ≤ quotient
            · have := le_mul_of_one_le_left hsign hone
              omega
            · have := mul_le_mul_of_nonpos_right hone (by omega : quotient ≤ 0)
              omega
          rw [Int.mul_ediv_cancel_left _ (by omega : product ≠ 0),
            wrap64_of_fits hfitsQuotient] at hquotient
          rw [← hproduct, hquotient]

/-! ### Growing a group -/

section
variable {group : Group} {oldProd newProd : SymExpr} {fuel : Nat}

/-- A group is taken from the front of the old axes and of the targets, and has settled. -/
structure PlanBuilder.Group.Splits (group : Group) (olds : List Entry) (targets : List SymExpr) :
    Prop where
  olds_eq : group.olds ++ group.restOld = olds
  targets_eq : group.targets ++ group.restTargets = targets
  olds_ne_nil : group.olds ≠ []
  targets_ne_nil : group.targets ≠ []
  settled : PlanBuilder.settles group.olds (PlanBuilder.product (group.olds.map Entry.padded))
    group.targets (PlanBuilder.product group.targets) = some group.divisor

theorem growGroup_splits
    (h : PlanBuilder.growGroup fuel olds oldProd targets newProd restOld restTargets = some group)
    (holds : olds ≠ []) (htargets : targets ≠ [])
    (hold : oldProd = PlanBuilder.product (olds.map Entry.padded))
    (hnew : newProd = PlanBuilder.product targets) :
    group.Splits (olds ++ restOld) (targets ++ restTargets) := by
  induction fuel generalizing olds oldProd targets newProd restOld restTargets with
  | zero =>
      rw [PlanBuilder.growGroup, Option.map_eq_some_iff] at h
      obtain ⟨divisor, hsettles, rfl⟩ := h
      subst hold hnew
      exact ⟨rfl, rfl, holds, htargets, hsettles⟩
  | succ fuel ih =>
      unfold PlanBuilder.growGroup at h
      cases hsettles : PlanBuilder.settles olds oldProd targets newProd with
      | some divisor =>
          rw [hsettles, Option.some.injEq] at h
          subst h hold hnew
          exact ⟨rfl, rfl, holds, htargets, hsettles⟩
      | none =>
          rw [hsettles] at h
          have htakeOld : ∀ entry rest, restOld = entry :: rest →
              PlanBuilder.growGroup fuel (olds ++ [entry]) (PlanBuilder.mul oldProd entry.padded)
                targets newProd rest restTargets = some group →
              group.Splits (olds ++ restOld) (targets ++ restTargets) := by
            rintro entry rest rfl htake
            have hgrown := ih htake (List.append_ne_nil_of_left_ne_nil holds _) htargets
              (by rw [List.map_append, List.map_singleton, PlanBuilder.product_append
                (by simpa using holds), hold]) hnew
            rwa [List.append_assoc] at hgrown
          have htakeTarget : ∀ target rest, restTargets = target :: rest →
              PlanBuilder.growGroup fuel olds oldProd (targets ++ [target])
                (PlanBuilder.mul newProd target) restOld rest = some group →
              group.Splits (olds ++ restOld) (targets ++ restTargets) := by
            rintro target rest rfl htake
            have hgrown := ih htake holds (List.append_ne_nil_of_left_ne_nil htargets _) hold
              (by rw [PlanBuilder.product_append htargets, hnew])
            rwa [List.append_assoc] at hgrown
          dsimp only at h
          clear hold hnew
          cases restOld with
          | nil =>
              cases restTargets with
              | nil => split at h <;> split at h <;> cases h
              | cons target rest =>
                  split at h <;> split at h
                  · cases h
                  · exact htakeTarget _ _ rfl h
                  · exact htakeTarget _ _ rfl h
                  · cases h
          | cons entry rest =>
              cases restTargets with
              | nil =>
                  split at h <;> split at h
                  · exact htakeOld _ _ rfl h
                  · cases h
                  · cases h
                  · exact htakeOld _ _ rfl h
              | cons target rest' =>
                  split at h <;> split at h
                  · exact htakeOld _ _ rfl h
                  · exact htakeTarget _ _ rfl h
                  · exact htakeTarget _ _ rfl h
                  · exact htakeOld _ _ rfl h

/-- Old axes and targets of a group have one product. -/
theorem PlanBuilder.Group.Splits.prod_eq (h : group.Splits olds targets)
    (hviews : List.Forall₂ (EntryDenotes σ cells) group.olds views)
    (hsizes : Sizes σ group.targets sizes) (hpos : Positive (shape views)) (hpos' : Positive sizes)
    (hfits : FitsI64 (shape views).prod) (hfits' : FitsI64 sizes.prod)
    (hdivides : ∀ d ∈ group.divisor, ∀ axis, views = [axis] → d.1 ∣ axis.padded) :
    (shape views).prod = sizes.prod := by
  have hold := evalWord_product (words_padded hviews hpos hfits) hpos hfits
  have hnew := evalWord_product hsizes.words hpos' hfits'
  have hsettled := h.settled
  unfold PlanBuilder.settles at hsettled
  split at hsettled
  · rename_i hproven
    rw [evalWord_of_proven hproven, hnew, Option.some.injEq] at hold
    exact hold.symm
  · split at hsettled
    · rename_i entry hsingle
      rw [hsingle] at hviews
      obtain ⟨axis, rest, hentry, hrest, rfl⟩ := List.forall₂_cons_left_iff.mp hviews
      obtain rfl := List.forall₂_nil_left_iff.mp hrest
      have hpadded : (shape [axis]).prod = axis.padded := List.prod_singleton
      rw [hpadded] at hfits ⊢
      exact matchesSplit_sound hsettled (hentry.padded hfits) hsizes hpos' hfits'
        fun d hd => hdivides d hd axis rfl
    · cases hsettled

end

/-! ### What the loop has made -/

section
variable {plan : PlanBuilder α} {referenced : Nat → Bool} {done mid done' : Reshaped}
  {axes : List PlanAxis} {moved : List (Option Nat × AffineExpr)}

/-- A run of old axes has become a run of new ones: a regrouping of the view, in which each old
    axis that some channel mentions has its coordinate. -/
structure Relaid (σ : Name → Int) (folding : Folding α) (cells : Int) (tracked : Bool)
    (referenced : Nat → Bool) (done done' : Reshaped) (olds : List Entry)
    (views news : List ViewAxis)
    (sizes : List Int) (axes : List PlanAxis) (moved : List (Option Nat × AffineExpr)) : Prop where
  axes_eq : done'.axes = done.axes ++ axes
  moved_eq : done'.moved = done.moved ++ moved
  symbols : done.symbols <+: done'.symbols
  denotes : List.Forall₂ (AxisDenotes σ cells) axes news
  shape_eq : shape news = sizes
  regroup : Regroup done.axes.length views news (moved.map Prod.fst)
  within : folding.Exact → ∀ place ∈ moved,
    place.2.InRange done'.axes.length done'.symbols.length
  follows : folding.Exact → tracked = true → ∀ names before index after,
    done'.symbols <+: names → before.length = done.axes.length → InBox sizes index →
    ∀ (q : Nat) entry place, olds[q]? = some entry → referenced entry.index = true →
      moved[q]? = some place → place.2.value σ names (before ++ index ++ after) =
        (relayout (shape views) sizes index)[q]?

/-- `Relaid`, for some new axes. -/
def Relays (σ : Name → Int) (folding : Folding α) (cells : Int) (tracked : Bool)
    (referenced : Nat → Bool) (done done' : Reshaped) (olds : List Entry) (views : List ViewAxis)
    (sizes : List Int) : Prop :=
  ∃ news axes moved,
    Relaid σ folding cells tracked referenced done done' olds views news sizes axes moved

theorem Relays.refl (done : Reshaped) {tracked : Bool} :
    Relays σ folding cells tracked referenced done done [] [] [] := by
  refine ⟨[], [], [], ⟨(List.append_nil _).symm, (List.append_nil _).symm, List.prefix_rfl,
    .nil, rfl,
    .nil _, fun _ _ hplace => absurd hplace List.not_mem_nil, ?_⟩⟩
  intro _ _ _ _ _ _ _ _ _ q entry _ hentry
  cases hentry

theorem Relays.trans {tracked : Bool} {olds' : List Entry} {views' : List ViewAxis}
    {sizes' : List Int}
    (h : Relays σ folding cells tracked referenced done mid olds views sizes)
    (h' : Relays σ folding cells tracked referenced mid done' olds' views' sizes')
    (hlength : olds.length = views.length) (hpos : Positive (shape (views ++ views')))
    (hpos' : Positive (sizes ++ sizes')) :
    Relays σ folding cells tracked referenced done done' (olds ++ olds') (views ++ views')
      (sizes ++ sizes') := by
  obtain ⟨news, axes, moved, h⟩ := h
  obtain ⟨news', axes', moved', h'⟩ := h'
  have hcount : mid.axes.length = done.axes.length + news.length := by
    rw [h.axes_eq, List.length_append, h.denotes.length_eq]
  have hmoved : moved.length = olds.length := by
    rw [← List.length_map Prod.fst, h.regroup.length_moved, hlength]
  rw [shape_append, positive_append] at hpos
  rw [positive_append] at hpos'
  refine ⟨news ++ news', axes ++ axes', moved ++ moved', ⟨?_, ?_, h.symbols.trans h'.symbols,
    List.rel_append h.denotes h'.denotes, ?_, ?_, fun hexact place hplace => ?_, ?_⟩⟩
  · rw [h'.axes_eq, h.axes_eq, List.append_assoc]
  · rw [h'.moved_eq, h.moved_eq, List.append_assoc]
  · rw [shape_append, h.shape_eq, h'.shape_eq]
  · rw [List.map_append]
    exact h.regroup.append (hcount ▸ h'.regroup)
  · rcases List.mem_append.mp hplace with hleft | hright
    · refine (h.within hexact place hleft).mono ?_ h'.symbols.length_le
      rw [h'.axes_eq, List.length_append]
      exact Nat.le_add_right _ _
    · exact h'.within hexact place hright
  · intro hexact htracked names before index after hnames hbefore hbox q entry place hentry
      hreferenced hplace
    rw [← h.shape_eq, ← h'.shape_eq, ← shape_append] at hbox
    obtain ⟨left, right, rfl, hleft, hright⟩ := Regroup.split_index hbox
    rw [h.shape_eq] at hleft
    rw [h'.shape_eq] at hright
    have hprod := h.regroup.prod_eq
    have hprod' := h'.regroup.prod_eq
    rw [h.shape_eq] at hprod
    rw [h'.shape_eq] at hprod'
    rw [shape_append, relayout_append hpos.1 hpos.2 hpos'.1 hpos'.2 hprod hprod' hleft hright]
    have hcountLeft : (relayout (shape views) sizes left).length = olds.length := by
      rw [relayout, length_unflat, length_shape, hlength]
    by_cases hlt : q < olds.length
    · rw [List.getElem?_append_left hlt] at hentry
      rw [List.getElem?_append_left (hmoved ▸ hlt)] at hplace
      rw [List.getElem?_append_left (hcountLeft ▸ hlt), ← List.append_assoc before,
        List.append_assoc]
      exact h.follows hexact htracked names before left (right ++ after)
        (h'.symbols.trans hnames) hbefore hleft q entry place hentry hreferenced hplace
    · rw [Nat.not_lt] at hlt
      rw [List.getElem?_append_right hlt] at hentry
      rw [List.getElem?_append_right (hmoved ▸ hlt), hmoved] at hplace
      rw [List.getElem?_append_right (hcountLeft ▸ hlt), hcountLeft, ← List.append_assoc before]
      refine h'.follows hexact htracked names (before ++ left) right after hnames ?_ hright _ entry
        place hentry hreferenced hplace
      rw [List.length_append, hbefore, hcount, ← h.denotes.length_eq, h.denotes.length_eq,
        ← hleft.length_eq, ← h.shape_eq, length_shape]

/-- An axis kept as it is. -/
theorem Relays.keep {tracked : Bool} {entry : Entry} {axis : ViewAxis} {size : Int}
    (hentry : EntryDenotes σ cells entry axis) (hsize : axis.padded = size) :
    Relays σ folding cells tracked referenced done
      { done with
        axes := done.axes ++ [entry.axis]
        moved := done.moved ++ [(some done.axes.length, .dim done.axes.length)] }
      [entry] [axis] [size] := by
  subst hsize
  refine ⟨[axis], [entry.axis], [(some done.axes.length, .dim done.axes.length)], ⟨rfl, rfl,
    List.prefix_rfl, .cons hentry.denotes .nil, rfl, .keep (.nil _), fun _ place hplace => ?_, ?_⟩⟩
  · rw [List.mem_singleton] at hplace
    subst hplace
    show done.axes.length < (done.axes ++ [entry.axis]).length
    rw [List.length_append]
    exact Nat.lt_succ_self _
  intro _ _ names before index after _ hbefore hbox q other place hother _ hplace
  have hpos : Positive (shape [axis]) :=
    positive_shape (by simpa using hentry.denotes.sound)
  rw [show relayout (shape [axis]) [axis.padded] index = index from relayout_self hpos hbox]
  obtain ⟨i, rfl⟩ := List.length_eq_one_iff.mp hbox.length_eq.symm
  cases q with
  | zero =>
      cases hplace
      rw [List.append_assoc]
      exact dim_value hbefore.symm
  | succ q => cases hother

/-- Unpadded axes that lie packed, relaid as new axes that lie packed in the same unit. -/
theorem Relaid.relay {tracked : Bool} {unit : Int} {symbols : List Name}
    (hruns : ∀ axis ∈ views, axis.Unpadded) (hpacked : Packed unit views)
    (hprod : (shape views).prod = sizes.prod)
    (hdenotes : List.Forall₂ (AxisDenotes σ cells) axes (packed unit sizes))
    (hmoved : moved.map Prod.fst = views.map fun _ => none) (hsymbols : done.symbols <+: symbols)
    (hwithin : folding.Exact → ∀ place ∈ moved,
      place.2.InRange (done.axes.length + sizes.length) symbols.length)
    {emitted : List DivisibilityAttr}
    (hfollows : folding.Exact → tracked = true → ∀ names before index after,
      symbols <+: names → before.length = done.axes.length → InBox sizes index →
      ∀ (q : Nat) entry place, olds[q]? = some entry → referenced entry.index = true →
        moved[q]? = some place → place.2.value σ names (before ++ index ++ after) =
          (relayout (shape views) sizes index)[q]?) :
    Relaid σ folding cells tracked referenced done
      ⟨done.axes ++ axes, emitted, done.moved ++ moved, symbols⟩ olds views
        (packed unit sizes) sizes
      axes moved := by
  have hcount : axes.length = sizes.length := by
    rw [hdenotes.length_eq, ← length_shape, shape_packed]
  refine ⟨rfl, rfl, hsymbols, hdenotes, shape_packed unit sizes, ?_, fun hexact place hplace => ?_,
    hfollows⟩
  swap
  · rw [List.length_append, hcount]
    exact hwithin hexact place hplace
  rw [shape_of_unpadded hruns] at hprod
  have hregroup := Regroup.relay unit hruns unpadded_packed
    (by rw [map_extent_packed, hprod]) hpacked (packed_packed unit sizes)
    (Regroup.nil (done.axes.length + (packed unit sizes).length))
  rw [List.append_nil, List.append_nil, List.append_nil] at hregroup
  rw [hmoved]
  exact hregroup

end

/-! ### Split and merge -/

section
variable {referenced : Nat → Bool} {done done' : Reshaped} {entry : Entry} {axis last : ViewAxis}

theorem packed_single (axis : ViewAxis) : Packed axis.stride [axis] := by
  show [axis.stride] = [axis.stride * 1]
  rw [mul_one]

/-- An axis split into a run of targets of its extent. -/
theorem splitGroup_relays {divisor : Option { divisor : Int // 1 < divisor }}
    (h : plan.splitGroup folding referenced entry targets divisor done = some done')
    (hentry : EntryDenotes σ cells entry axis) (hcells : FitsI64 cells)
    (hsizes : Sizes σ targets sizes) (hpos : Positive sizes)
    (hprod : (shape [axis]).prod = sizes.prod) :
    Relays σ folding cells plan.tracksChannels referenced done done' [entry] [axis] sizes := by
  unfold PlanBuilder.splitGroup at h
  split at h
  · cases h
  rename_i hpad
  have hfree : axis.Unpadded := by
    have hdenotes := hentry.pad
    rw [Option.not_isSome_iff_eq_none.mp hpad] at hdenotes
    exact hdenotes
  have hall : ∀ other ∈ [axis], other.Unpadded := by simpa using hfree
  have hextent : sizes.prod = axis.extent := by
    rw [← hprod, shape_of_unpadded hall]
    exact List.prod_singleton
  have hdenotes := (axesDenote_appendSplitAxes hsizes hpos hentry.denotes.srcStride
    hentry.denotes.one_le_stride (hextent ▸ hentry.denotes.stride_le) hcells).1
  cases h
  refine ⟨_, _, _, Relaid.relay hall (packed_single axis) hprod hdenotes rfl ?_ ?_ ?_⟩
  · split
    · exact prefix_recombine _ _ _ _ _
    · exact List.prefix_rfl
  · intro hexact place hplace
    rw [List.mem_singleton] at hplace
    subst hplace
    split
    · exact recombined_inRange hexact hsizes
    · trivial
  · intro hexact htracked names before index after hnames hbefore hbox q other place hother
      hreferenced hplace
    cases q with
    | succ q => cases hother
    | zero =>
        cases hother
        cases hplace
        rw [htracked, hreferenced, Bool.and_self, if_pos rfl, ← hbefore] at hnames ⊢
        show _ = (relayout [axis.padded] sizes index)[0]?
        rw [relayout_single]
        exact recombined_value hexact hsizes hbox hnames

/-- Neighbours that are contiguous lie packed in units of the last stride. -/
theorem packed_of_contiguousRun (h : PlanBuilder.contiguousRun olds = true)
    (hviews : List.Forall₂ (EntryDenotes σ cells) olds views) (hcells : FitsI64 cells)
    (hlast : views.getLast? = some last) : Packed last.stride views := by
  induction hviews with
  | nil => cases hlast
  | @cons entry axis olds views hentry hrest ih =>
      cases hrest with
      | nil =>
          cases hlast
          exact packed_single _
      | @cons inner next olds views hinner hrest =>
          rw [PlanBuilder.contiguousRun, Bool.and_eq_true] at h
          rw [List.getLast?_cons_cons] at hlast
          have hpacked := ih h.2 hlast
          have hstride := areLogicallyEqual_evalWord (σ := σ) h.1
          have hone : 1 ≤ next.stride * next.extent :=
            one_le_mul_of_one_le_of_one_le hinner.denotes.one_le_stride
              hinner.denotes.sound.one_le
          have hproduct := evalWord_mul hinner.denotes.srcStride
            (evalWord_of_evalChecked hinner.denotes.extent)
            (hcells.of_le hone hinner.denotes.stride_le)
          have hequal : axis.stride = next.stride * next.extent :=
            Option.some.inj (hentry.denotes.srcStride.symm.trans (hstride.trans hproduct))
          have hhead : next.stride = last.stride * (views.map ViewAxis.extent).prod :=
            (List.cons.inj hpacked).1
          unfold Packed at hpacked ⊢
          rw [List.map_cons, hpacked, hequal, hhead]
          show _ = last.stride * ((next :: views).map ViewAxis.extent).prod :: _
          rw [List.map_cons, List.prod_cons, List.cons.injEq]
          exact ⟨by ring, rfl⟩

/-- Packed axes span no more than their first one. -/
theorem span_le_of_packed (hpacked : Packed last.stride views)
    (hviews : List.Forall₂ (EntryDenotes σ cells) olds views) (hne : olds ≠ []) :
    last.stride * (views.map ViewAxis.extent).prod ≤ cells := by
  cases hviews with
  | nil => exact absurd rfl hne
  | @cons entry axis olds views hentry _ =>
      have hhead : axis.stride = last.stride * (views.map ViewAxis.extent).prod :=
        (List.cons.inj hpacked).1
      have hle := hentry.denotes.stride_le
      rw [hhead] at hle
      rw [List.map_cons, List.prod_cons]
      calc last.stride * (axis.extent * (views.map ViewAxis.extent).prod)
          = last.stride * (views.map ViewAxis.extent).prod * axis.extent := by ring
        _ ≤ cells := hle

theorem forall₂_getLast? {β γ : Type} {R : β → γ → Prop} {xs : List β} {ys : List γ} {x : β}
    (h : List.Forall₂ R xs ys) (hlast : xs.getLast? = some x) :
    ∃ y, ys.getLast? = some y ∧ R x y := by
  rw [List.getLast?_eq_getElem?, List.getElem?_eq_some_iff] at hlast
  obtain ⟨hlt, rfl⟩ := hlast
  have hlt' : xs.length - 1 < ys.length := h.length_eq ▸ hlt
  refine ⟨ys.get ⟨xs.length - 1, hlt'⟩, ?_, (List.forall₂_iff_get.mp h).2 _ hlt hlt'⟩
  rw [List.getLast?_eq_getElem?, show ys.length - 1 = xs.length - 1 by rw [h.length_eq]]
  exact List.getElem?_eq_getElem hlt'

/-- A merged run, whose number is the value of an expression. -/
theorem Relays.merge {merged : AffineExpr × List Name} (hlength : olds.length = views.length)
    (hextents : Sizes σ (olds.map fun entry => entry.axis.extent) (views.map ViewAxis.extent))
    (hpos : Positive (views.map ViewAxis.extent)) (hfree : ∀ axis ∈ views, axis.Unpadded)
    {unit : Int} (hpacked : Packed unit views) (hprod : (shape views).prod = sizes.prod)
    {axes : List PlanAxis} (hdenotes : List.Forall₂ (AxisDenotes σ cells) axes (packed unit sizes))
    (hsymbols : done.symbols <+: merged.2)
    (hmerged : folding.Exact → plan.tracksChannels = true → ∀ names before index after,
      merged.2 <+: names → before.length = done.axes.length → InBox sizes index →
      merged.1.value σ names (before ++ index ++ after) = some (flat sizes index))
    (hwithin : folding.Exact →
      merged.1.InRange (done.axes.length + sizes.length) merged.2.length) :
    let coordinates := if plan.tracksChannels
      then PlanBuilder.mergedCoordinates folding referenced merged.1 true olds merged.2
      else (olds.map fun _ => (none, .constant 0), merged.2)
    Relays σ folding cells plan.tracksChannels referenced done
      ⟨done.axes ++ axes, done.emitted, done.moved ++ coordinates.1, coordinates.2⟩ olds views
      sizes := by
  have hmap : (olds.map fun _ => (none : Option Nat)) = views.map fun _ => none := by
    rw [List.map_const', List.map_const', hlength]
  refine ⟨_, _, _, Relaid.relay hfree hpacked hprod hdenotes ?_ ?_ ?_ ?_⟩
  · rw [← hmap]
    split
    · exact map_fst_mergedCoordinates _ _ _ _ _
    · exact List.map_map
  · split
    · exact hsymbols.trans (prefix_mergedCoordinates _ _ _ _ _)
    · exact hsymbols
  · intro hexact place hplace
    split at hplace
    · rename_i htracked
      rw [if_pos htracked]
      exact mergedCoordinates_inRange hexact (hwithin hexact) place hplace
    · obtain ⟨entry, -, rfl⟩ := List.mem_map.mp hplace
      trivial
  · intro hexact htracked names before index after hnames hbefore hbox q entry place hentry
      hreferenced hplace
    rw [htracked, if_pos rfl] at hnames hplace
    rw [shape_of_unpadded hfree]
    exact mergedCoordinates_value hexact hextents hpos
      (hmerged hexact htracked names before index after
        ((prefix_mergedCoordinates _ _ _ _ _).trans hnames) hbefore hbox)
      hnames hentry hreferenced hplace

/-- A run of axes merged, and split again where there are several targets. -/
theorem mergeGroup_relays
    (h : plan.mergeGroup folding referenced olds targets done = some done')
    (hviews : List.Forall₂ (EntryDenotes σ cells) olds views) (hcells : FitsI64 cells)
    (hsizes : Sizes σ targets sizes) (hpos : Positive sizes)
    (hprod : (shape views).prod = sizes.prod) :
    Relays σ folding cells plan.tracksChannels referenced done done' olds views sizes := by
  unfold PlanBuilder.mergeGroup at h
  split at h
  · cases h
  rename_i hguard
  rw [Bool.or_eq_true, not_or, Bool.not_eq_true', Bool.not_eq_false, Bool.not_eq_true] at hguard
  obtain ⟨hpads, hrun⟩ := hguard
  split at h
  · cases h
  rename_i lastEntry hlastEntry
  obtain ⟨last, hlast, hlastDenotes⟩ := forall₂_getLast? hviews hlastEntry
  have hpacked := packed_of_contiguousRun hrun hviews hcells hlast
  have hat : ∀ (k : Nat) (hk : k < olds.length) (hk' : k < views.length),
      EntryDenotes σ cells olds[k] views[k] := (List.forall₂_iff_get.mp hviews).2
  have hfree : ∀ axis ∈ views, axis.Unpadded := by
    intro axis haxis
    obtain ⟨k, hk', rfl⟩ := List.mem_iff_getElem.mp haxis
    have hk : k < olds.length := hviews.length_eq ▸ hk'
    have hdenotes := (hat k hk hk').pad
    have hnone := List.any_eq_false.mp hpads _ (List.getElem_mem hk)
    rw [Option.not_isSome_iff_eq_none.mp hnone] at hdenotes
    exact hdenotes
  have hextents : Sizes σ (olds.map fun entry => entry.axis.extent)
      (views.map ViewAxis.extent) := by
    rw [Sizes, List.forall₂_map_left_iff, List.forall₂_map_right_iff]
    exact hviews.imp fun _ _ hentry => hentry.denotes.extent
  have hviewsPos : Positive (views.map ViewAxis.extent) := by
    intro extent hextent
    obtain ⟨axis, haxis, rfl⟩ := List.mem_map.mp hextent
    obtain ⟨k, hk', rfl⟩ := List.mem_iff_getElem.mp haxis
    exact (hat k (hviews.length_eq ▸ hk') hk').denotes.sound.one_le
  have hne : olds ≠ [] := by
    intro hnil
    rw [hnil] at hlastEntry
    cases hlastEntry
  have hspan : last.stride * sizes.prod ≤ cells := by
    have hle := span_le_of_packed hpacked hviews hne
    rwa [← shape_of_unpadded hfree, hprod] at hle
  have hdenotes := (axesDenote_appendSplitAxes hsizes hpos hlastDenotes.denotes.srcStride
    hlastDenotes.denotes.one_le_stride hspan hcells).1
  by_cases hsingle : ∃ target, targets = [target]
  · obtain ⟨target, rfl⟩ := hsingle
    obtain ⟨size, rest, hsize, hrest, rfl⟩ := List.forall₂_cons_left_iff.mp hsizes
    obtain rfl := List.forall₂_nil_left_iff.mp hrest
    obtain rfl := Option.some.inj h
    refine Relays.merge hviews.length_eq hextents hviewsPos hfree hpacked hprod hdenotes ?_ ?_ ?_
    · split <;> exact List.prefix_rfl
    · intro _ htracked names before index after _ hbefore hbox
      obtain ⟨i, rfl⟩ := List.length_eq_one_iff.mp hbox.length_eq.symm
      rw [htracked, if_pos rfl, List.append_assoc, show flat [size] [i] = i by simp [flat]]
      exact dim_value hbefore.symm
    · intro _
      split
      · exact Nat.lt_succ_self _
      · trivial
  · have hmerged : ∃ merged : AffineExpr × List Name,
        (merged = if plan.tracksChannels
          then PlanBuilder.recombined folding done.axes.length targets done.symbols
          else (.constant 0, done.symbols)) ∧
        done' =
          let coordinates := if plan.tracksChannels
            then PlanBuilder.mergedCoordinates folding referenced merged.1 true olds merged.2
            else (olds.map fun _ => (none, .constant 0), merged.2)
          ⟨done.axes ++ PlanBuilder.appendSplitAxes targets lastEntry.axis.srcStride, done.emitted,
            done.moved ++ coordinates.1, coordinates.2⟩ := by
      refine ⟨_, rfl, ?_⟩
      cases targets with
      | nil => exact (Option.some.inj h).symm
      | cons target rest =>
          cases rest with
          | nil => exact absurd ⟨target, rfl⟩ hsingle
          | cons next rest => exact (Option.some.inj h).symm
    obtain ⟨merged, hmerged, rfl⟩ := hmerged
    refine Relays.merge hviews.length_eq hextents hviewsPos hfree hpacked hprod hdenotes ?_ ?_ ?_
    · rw [hmerged]
      split
      · exact prefix_recombine _ _ _ _ _
      · exact List.prefix_rfl
    · intro hexact htracked names before index after hnames hbefore hbox
      rw [htracked, if_pos rfl] at hmerged
      rw [hmerged, ← hbefore] at hnames ⊢
      exact recombined_value hexact hsizes hbox hnames
    · intro hexact
      rw [hmerged]
      split
      · exact recombined_inRange hexact hsizes
      · trivial

/-- A group settled on one product, whatever becomes of it. -/
theorem foldGroup_relays {group : Group}
    (h : plan.foldGroup folding referenced group done = some done')
    (hviews : List.Forall₂ (EntryDenotes σ cells) group.olds views) (hcells : FitsI64 cells)
    (hsizes : Sizes σ group.targets sizes) (hpos : Positive sizes)
    (hprod : (shape views).prod = sizes.prod) :
    Relays σ folding cells plan.tracksChannels referenced done done' group.olds views sizes := by
  obtain ⟨olds, targets, divisor, restOld, restTargets⟩ := group
  unfold PlanBuilder.foldGroup at h
  dsimp only at h hviews hsizes ⊢
  split at h
  · obtain rfl := Option.some.inj h
    obtain ⟨axis, rest, hentry, hrest, rfl⟩ := List.forall₂_cons_left_iff.mp hviews
    obtain rfl := List.forall₂_nil_left_iff.mp hrest
    obtain ⟨size, rest, hsize, hrest, rfl⟩ := List.forall₂_cons_left_iff.mp hsizes
    obtain rfl := List.forall₂_nil_left_iff.mp hrest
    refine Relays.keep hentry ?_
    simpa [shape] using hprod
  · obtain ⟨axis, rest, hentry, hrest, rfl⟩ := List.forall₂_cons_left_iff.mp hviews
    obtain rfl := List.forall₂_nil_left_iff.mp hrest
    exact splitGroup_relays h hentry hcells hsizes hpos hprod
  · exact mergeGroup_relays h hviews hcells hsizes hpos hprod

end

/-! ### The loop -/

section
variable {referenced : Nat → Bool} {done mid done' : Reshaped} {group : Group}

theorem foldGroup_emitted (h : plan.foldGroup folding referenced group done = some done') :
    done.emitted ⊆ done'.emitted := by
  unfold PlanBuilder.foldGroup at h
  split at h
  · obtain rfl := Option.some.inj h
    exact List.Subset.refl _
  · unfold PlanBuilder.splitGroup at h
    split at h
    · cases h
    obtain rfl := Option.some.inj h
    dsimp only
    split
    · exact List.Subset.refl _
    · split
      · exact List.Subset.refl _
      · exact List.subset_append_left _ _
  · unfold PlanBuilder.mergeGroup at h
    split at h
    · cases h
    split at h
    · cases h
    obtain rfl := Option.some.inj h
    exact List.Subset.refl _

/-- The divisor of a group is a constraint on the extent of its one axis, which has no pad. -/
theorem foldGroup_divisor {entry : Entry} {d : { divisor : Int // 1 < divisor }}
    (h : plan.foldGroup folding referenced group done = some done') (hd : d ∈ group.divisor)
    (hsingle : group.olds = [entry]) :
    entry.pad = none ∧ ∃ constraint ∈ plan.divisibility ++ done'.emitted,
      constraint.expr = entry.axis.extent ∧ constraint.divisor = d.1 := by
  have hsplit : plan.splitGroup folding referenced entry group.targets (some d) done =
      some done' := by
    obtain ⟨olds, targets, divisor, restOld, restTargets⟩ := group
    obtain rfl := hsingle
    obtain rfl := hd
    cases targets with
    | nil => exact h
    | cons target rest =>
        cases rest with
        | nil => exact h
        | cons next rest => exact h
  unfold PlanBuilder.splitGroup at hsplit
  split at hsplit
  · cases hsplit
  rename_i hpad
  refine ⟨Option.not_isSome_iff_eq_none.mp hpad,
    ⟨entry.axis.extent, d.1, one_pos.trans d.2⟩, ?_, rfl, rfl⟩
  obtain rfl := Option.some.inj hsplit
  rw [List.mem_append]
  dsimp only
  split
  · assumption
  · exact .inr (List.mem_append_right _ (List.mem_singleton_self _))

theorem absorbOlds_emitted (h : PlanBuilder.absorbOlds olds done = some done') :
    done'.emitted = done.emitted := by
  induction olds generalizing done with
  | nil =>
      cases h
      rfl
  | cons entry olds ih =>
      unfold PlanBuilder.absorbOlds at h
      split at h
      · have hrest := ih h
        exact hrest
      · cases h

theorem absorbTargets_emitted (h : PlanBuilder.absorbTargets targets done = some done') :
    done'.emitted = done.emitted := by
  induction targets generalizing done with
  | nil =>
      cases h
      rfl
  | cons target targets ih =>
      unfold PlanBuilder.absorbTargets at h
      split at h
      · have hrest := ih h
        exact hrest
      · cases h

/-- One turn of the loop: a group while there are axes and targets, else what is left. -/
theorem reshapeLoop_cases {fuel : Nat}
    (h : plan.reshapeLoop folding referenced fuel olds targets done = some done') :
    (∃ (fuel' : Nat) (group : Group) (mid : Reshaped), fuel = fuel' + 1 ∧
        group.Splits olds targets ∧
        plan.foldGroup folding referenced group done = some mid ∧
        plan.reshapeLoop folding referenced fuel' group.restOld group.restTargets mid =
          some done') ∨
      ∃ mid, PlanBuilder.absorbOlds olds done = some mid ∧
        PlanBuilder.absorbTargets targets mid = some done' := by
  unfold PlanBuilder.reshapeLoop at h
  split at h
  · simp only [Option.bind_eq_bind, Option.bind_eq_some_iff] at h
    obtain ⟨group, hgrow, mid, hfold, hloop⟩ := h
    exact .inl ⟨_, group, mid, rfl, growGroup_splits hgrow (List.cons_ne_nil _ _)
      (List.cons_ne_nil _ _) rfl rfl, hfold, hloop⟩
  · simp only [Option.bind_eq_bind, Option.bind_eq_some_iff] at h
    exact .inr h

theorem reshapeLoop_emitted {fuel : Nat}
    (h : plan.reshapeLoop folding referenced fuel olds targets done = some done') :
    done.emitted ⊆ done'.emitted := by
  induction fuel generalizing olds targets done with
  | zero =>
      rcases reshapeLoop_cases h with ⟨_, _, _, hfuel, -⟩ | ⟨mid, holds, htargets⟩
      · cases hfuel
      · rw [absorbTargets_emitted htargets, absorbOlds_emitted holds]
        exact List.Subset.refl _
  | succ fuel ih =>
      rcases reshapeLoop_cases h with ⟨_, group, mid, hfuel, -, hfold, hloop⟩ |
        ⟨mid, holds, htargets⟩
      · cases hfuel
        exact List.Subset.trans (foldGroup_emitted hfold) (ih hloop)
      · rw [absorbTargets_emitted htargets, absorbOlds_emitted holds]
        exact List.Subset.refl _

theorem positive_of_denotes (hviews : List.Forall₂ (EntryDenotes σ cells) olds views) :
    Positive (shape views) := by
  refine positive_shape fun axis haxis => ?_
  obtain ⟨k, hk, rfl⟩ := List.mem_iff_getElem.mp haxis
  exact ((List.forall₂_iff_get.mp hviews).2 k (hviews.length_eq ▸ hk) hk).denotes.sound

/-- Unit axes dropped. -/
theorem absorbOlds_relays {tracked : Bool} (h : PlanBuilder.absorbOlds olds done = some done')
    (hviews : List.Forall₂ (EntryDenotes σ cells) olds views)
    (hfits : ∀ axis ∈ views, FitsI64 axis.padded) :
    Relays σ folding cells tracked referenced done done' olds views [] := by
  induction hviews generalizing done with
  | nil =>
      cases h
      exact Relays.refl _
  | @cons entry axis olds views hentry hrest ih =>
      rw [List.forall_mem_cons] at hfits
      unfold PlanBuilder.absorbOlds at h
      split at h
      swap
      · cases h
      rename_i hunit
      have hfree : axis.Unpadded := by
        have hdenotes := hentry.pad
        rw [hunit.2] at hdenotes
        exact hdenotes
      have hone : axis.padded = 1 := by
        have hword := evalWord_of_proven (σ := σ) hunit.1
        rw [hentry.padded hfits.1] at hword
        exact Option.some.inj hword
      have hall : ∀ other ∈ [axis], other.Unpadded := by simpa using hfree
      have hdropped : Relays σ folding cells tracked referenced done
          ⟨done.axes ++ [], done.emitted, done.moved ++ [(none, .constant 0)], done.symbols⟩
          [entry] [axis] [] := by
        refine ⟨_, _, _, Relaid.relay hall (packed_single axis) ?_ .nil rfl List.prefix_rfl ?_ ?_⟩
        · show axis.padded * 1 = 1
          rw [mul_one, hone]
        · intro _ place hplace
          rw [List.mem_singleton] at hplace
          subst hplace
          trivial
        · intro _ _ names before index after _ _ hbox q other place hother _ hplace
          cases hbox
          cases q with
          | zero =>
              cases hplace
              rfl
          | succ q => cases hother
      rw [List.append_nil] at hdropped
      exact hdropped.trans (ih h hfits.2) rfl (positive_of_denotes (.cons hentry hrest))
        (fun _ hmem => absurd hmem List.not_mem_nil)

/-- Unit axes added. -/
theorem absorbTargets_relays {tracked : Bool}
    (h : PlanBuilder.absorbTargets targets done = some done') (hsizes : Sizes σ targets sizes)
    (hpos : Positive sizes) (hcells : 1 ≤ cells) :
    Relays σ folding cells tracked referenced done done' [] [] sizes := by
  induction hsizes generalizing done with
  | nil =>
      cases h
      exact Relays.refl _
  | @cons target size targets sizes hsize _ ih =>
      have hall := hpos
      rw [positive_cons] at hpos
      unfold PlanBuilder.absorbTargets at h
      split at h
      swap
      · cases h
      rename_i hunit
      have hword := evalWord_of_proven (σ := σ) hunit
      rw [evalWord_of_evalChecked hsize] at hword
      obtain rfl : size = 1 := Option.some.inj hword
      have hdenotes : AxisDenotes σ cells ⟨[], target, .constant 1⟩ ⟨1, 1 * [].prod, 0, 0⟩ :=
        ⟨hsize, rfl, ⟨le_rfl, le_rfl, le_rfl⟩, le_rfl, hcells⟩
      have hadded : Relays σ folding cells tracked referenced done
          ⟨done.axes ++ [⟨[], target, .constant 1⟩], done.emitted, done.moved ++ [], done.symbols⟩
          [] [] [1] := by
        have hpacked : Packed 1 [] := rfl
        have hprod : (shape []).prod = ([1] : List Int).prod := rfl
        refine ⟨_, _, _, Relaid.relay (fun _ hmem => absurd hmem List.not_mem_nil) hpacked hprod
          (.cons hdenotes .nil) rfl List.prefix_rfl
          (fun _ _ hplace => absurd hplace List.not_mem_nil) ?_⟩
        intro _ _ names before index after _ _ _ q other place hother
        cases hother
      rw [List.append_nil] at hadded
      exact hadded.trans (ih h hpos.2) rfl (fun _ hmem => absurd hmem List.not_mem_nil) hall

theorem forall₂_append_left {β γ : Type} {R : β → γ → Prop} {xs xs' : List β} {ys : List γ}
    (h : List.Forall₂ R (xs ++ xs') ys) :
    ∃ left right, ys = left ++ right ∧ List.Forall₂ R xs left ∧ List.Forall₂ R xs' right := by
  refine ⟨ys.take xs.length, ys.drop xs.length, (List.take_append_drop _ _).symm, ?_, ?_⟩
  · have htake := List.forall₂_take xs.length h
    rwa [List.take_left] at htake
  · have hdrop := List.forall₂_drop xs.length h
    rwa [List.drop_left] at hdrop

/-- What is left after the groups: unit axes on either side. -/
theorem absorb_relays {tracked : Bool} (h : PlanBuilder.absorbOlds olds done = some mid)
    (h' : PlanBuilder.absorbTargets targets mid = some done')
    (hviews : List.Forall₂ (EntryDenotes σ cells) olds views) (hsizes : Sizes σ targets sizes)
    (hpos : Positive sizes) (hfits : FitsI64 (shape views).prod) (hone : 1 ≤ cells) :
    Relays σ folding cells tracked referenced done done' olds views sizes := by
  have hposViews := positive_of_denotes hviews
  have hdropped : Relays σ folding cells tracked referenced done mid olds views [] :=
    absorbOlds_relays h hviews fun axis haxis =>
      hfits.of_le (hposViews _ (List.mem_map_of_mem haxis))
        (hposViews.le_prod (List.mem_map_of_mem haxis))
  have hadded : Relays σ folding cells tracked referenced mid done' [] [] sizes :=
    absorbTargets_relays h' hsizes hpos hone
  have hboth := hdropped.trans hadded hviews.length_eq (by rwa [List.append_nil]) hpos
  rwa [List.append_nil, List.append_nil] at hboth

/-- Where the constraints hold, the divisor of a group divides its one axis. -/
theorem foldGroup_dvd {d : { divisor : Int // 1 < divisor }} {axis : ViewAxis}
    (h : plan.foldGroup folding referenced group done = some done') (hd : d ∈ group.divisor)
    (hviews : List.Forall₂ (EntryDenotes σ cells) group.olds [axis])
    (hdivides : ∀ constraint ∈ plan.divisibility ++ done'.emitted, ∃ value,
      constraint.expr.evalChecked σ = some value ∧ constraint.divisor ∣ value) :
    d.1 ∣ axis.padded := by
  obtain ⟨entry, rest, hentry, hrest, holds⟩ := List.forall₂_cons_right_iff.mp hviews
  obtain rfl := List.forall₂_nil_right_iff.mp hrest
  obtain ⟨hpad, constraint, hmem, hexpr, hdivisor⟩ := foldGroup_divisor h hd holds
  obtain ⟨value, hvalue, hdvd⟩ := hdivides constraint hmem
  rw [hexpr, hentry.denotes.extent, Option.some.injEq] at hvalue
  have hdenotes := hentry.pad
  rw [hpad] at hdenotes
  rw [ViewAxis.Unpadded.padded_eq hdenotes, hvalue, ← hdivisor]
  exact hdvd

/-- The loop regroups the axes into the targets, if the constraints hold that it has met. -/
theorem reshapeLoop_relays {fuel : Nat}
    (h : plan.reshapeLoop folding referenced fuel olds targets done = some done')
    (hviews : List.Forall₂ (EntryDenotes σ cells) olds views) (hsizes : Sizes σ targets sizes)
    (hpos : Positive sizes) (hfits : FitsI64 (shape views).prod) (hfits' : FitsI64 sizes.prod)
    (hcells : FitsI64 cells) (hone : 1 ≤ cells)
    (hdivides : ∀ constraint ∈ plan.divisibility ++ done'.emitted, ∃ value,
      constraint.expr.evalChecked σ = some value ∧ constraint.divisor ∣ value) :
    Relays σ folding cells plan.tracksChannels referenced done done' olds views sizes := by
  induction fuel generalizing olds targets done views sizes with
  | zero =>
      rcases reshapeLoop_cases h with ⟨_, _, _, hfuel, -⟩ | ⟨mid, holds, htargets⟩
      · cases hfuel
      · exact absorb_relays holds htargets hviews hsizes hpos hfits hone
  | succ fuel ih =>
      rcases reshapeLoop_cases h with ⟨_, group, mid, hfuel, hsplits, hfold, hloop⟩ |
        ⟨mid, holds, htargets⟩
      swap
      · exact absorb_relays holds htargets hviews hsizes hpos hfits hone
      cases hfuel
      rw [← hsplits.olds_eq] at hviews ⊢
      rw [← hsplits.targets_eq] at hsizes
      obtain ⟨views, restViews, rfl, hviews, hrestViews⟩ := forall₂_append_left hviews
      obtain ⟨sizes, restSizes, rfl, hsizes, hrestSizes⟩ := forall₂_append_left hsizes
      have hposViews := positive_of_denotes hviews
      have hposRest := positive_of_denotes hrestViews
      have hposAll : Positive (shape views ++ shape restViews) := positive_append.mpr
        ⟨hposViews, hposRest⟩
      have hle := prod_le_prod_append hposAll
      have hle' := prod_le_prod_append hpos
      have hposBoth := positive_append.mp hpos
      rw [shape_append] at hfits
      have hmid : ∀ constraint ∈ plan.divisibility ++ mid.emitted, ∃ value,
          constraint.expr.evalChecked σ = some value ∧ constraint.divisor ∣ value := by
        intro constraint hmem
        refine hdivides constraint ?_
        rw [List.mem_append] at hmem ⊢
        exact hmem.imp_right fun hnew => reshapeLoop_emitted hloop hnew
      have hprod := hsplits.prod_eq hviews hsizes hposViews hposBoth.1
        (hfits.of_le hposViews.one_le_prod hle.1) (hfits'.of_le hposBoth.1.one_le_prod hle'.1)
        (by
          rintro d hd axis rfl
          exact foldGroup_dvd hfold hd hviews hmid)
      have hgroup := foldGroup_relays hfold hviews hcells hsizes hposBoth.1 hprod
      have hrest := ih hloop hrestViews hrestSizes hposBoth.2
        (hfits.of_le hposRest.one_le_prod hle.2) (hfits'.of_le hposBoth.2.one_le_prod hle'.2)
      refine hgroup.trans hrest hviews.length_eq ?_ hpos
      rw [shape_append]
      exact hposAll

end

/-! ### The reshape of a plan -/

theorem sizes_of_mapM (h : targets.mapM (evalChecked σ) = some sizes) : Sizes σ targets sizes := by
  induction targets generalizing sizes with
  | nil =>
      cases h
      exact .nil
  | cons target targets ih =>
      simp only [List.mapM_cons, Option.bind_eq_bind, Option.bind_eq_some_iff, Option.pure_def,
        Option.some.injEq] at h
      obtain ⟨size, hsize, rest, hrest, rfl⟩ := h
      exact .cons hsize (ih hrest)

/-- Some channel of the plan mentions a dimension. -/
def PlanBuilder.mentions (plan : PlanBuilder α) (k : Nat) : Bool :=
  plan.stages.any fun stage => stage.channel.any fun channel => k ∈ channel.dims

/-- The new number of an old axis that is kept. -/
def PlanBuilder.Reshaped.place (done : Reshaped) (k : Nat) : Nat :=
  ((done.moved[k]?).bind Prod.fst).getD 0

section
variable {done : Reshaped} {targetShape : List SymExpr}

theorem mapM_place {pads pads' : List PlanPad}
    (h : pads.mapM (fun pad => do
      let moved ← done.moved[pad.axis]?
      let axis ← moved.1
      pure { pad with axis := axis }) = some pads') :
    pads' = pads.map (PlanPad.renumber done.place) ∧
      ∀ pad ∈ pads, (done.moved.map Prod.fst)[pad.axis]? = some (some (done.place pad.axis)) := by
  induction pads generalizing pads' with
  | nil =>
      cases h
      exact ⟨rfl, fun _ hmem => absurd hmem List.not_mem_nil⟩
  | cons pad pads ih =>
      simp only [List.mapM_cons, Option.bind_eq_bind, Option.bind_eq_some_iff, Option.pure_def,
        Option.some.injEq] at h
      obtain ⟨new, ⟨moved, hmoved, axis, haxis, rfl⟩, rest, hrest, rfl⟩ := h
      obtain ⟨rfl, hplaces⟩ := ih (by simpa using hrest)
      have hplace : done.place pad.axis = axis := by
        rw [PlanBuilder.Reshaped.place, hmoved, Option.bind_some, haxis, Option.getD_some]
      rw [List.map_cons, List.forall_mem_cons, PlanPad.renumber, hplace]
      refine ⟨rfl, ?_, hplaces⟩
      rw [List.getElem?_map, hmoved, Option.map_some, haxis]

/-- What folding a reshape makes of the plan. -/
theorem PlanBuilder.foldReshape_eq_some (h : plan.foldReshape folding targetShape = some plan') :
    ∃ done, plan.reshapeLoop folding plan.mentions plan.axes.length plan.entries targetShape
        ⟨[], [], [], plan.symbolNames⟩ = some done ∧
      plan'.axes = done.axes.zipIdx.map (fun entry => { entry.1 with name := axisName entry.2 }) ∧
      plan'.perm = (List.range done.axes.length).map (fun k : Nat => (k : Int)) ∧
      plan'.divisibility = plan.divisibility ++ done.emitted ∧
      plan'.pads = plan.pads.map (PlanPad.renumber done.place) ∧
      (∀ pad ∈ plan.pads, (done.moved.map Prod.fst)[pad.axis]? =
        some (some (done.place pad.axis))) ∧
      (plan'.stages = if plan.tracksChannels
        then replaceChannelDims folding (done.moved.map Prod.snd) plan.stages else plan.stages) ∧
      plan'.symbolNames = if plan.tracksChannels then done.symbols else plan.symbolNames := by
  unfold foldReshape at h
  split at h
  · cases h
  dsimp only at h
  split at h
  · cases h
  rename_i done hloop
  simp only [Option.bind_eq_bind, Option.bind_eq_some_iff, Option.pure_def,
    Option.some.injEq] at h
  obtain ⟨pads, hpads, rfl⟩ := h
  obtain ⟨hrenumbered, hplaces⟩ := mapM_place (by simpa using hpads)
  exact ⟨done, hloop, rfl, rfl, rfl, hrenumbered, hplaces, rfl, rfl⟩

theorem Traces.entries (h : Traces σ folding cells plan view tensor) :
    List.Forall₂ (EntryDenotes σ cells) plan.entries view := by
  rw [PlanBuilder.entries, List.forall₂_map_left_iff, List.forall₂_iff_get]
  refine ⟨by rw [List.length_zipIdx, h.length_eq], fun k hk hk' => ?_⟩
  rw [List.length_zipIdx] at hk
  have haxis := (List.forall₂_iff_get.mp h.axes).2 k hk hk'
  have hpad := h.pads k _ (List.getElem?_eq_getElem hk')
  simp only [List.get_eq_getElem, List.getElem_zipIdx, Nat.zero_add] at haxis ⊢
  exact ⟨haxis, hpad⟩

/-- The axes of the plan relaid as the sizes of the reshape. -/
theorem Traces.relays (h : Traces σ folding cells plan view tensor) (hcells : FitsI64 cells)
    (hone : 1 ≤ cells)
    (hloop : plan.reshapeLoop folding plan.mentions plan.axes.length plan.entries targetShape
      ⟨[], [], [], plan.symbolNames⟩ = some done)
    (hsizes : Sizes σ targetShape sizes) (hpos : Positive sizes)
    (hprod : sizes.prod = tensor.shape.prod)
    (hdivides : ∀ constraint ∈ plan.divisibility ++ done.emitted, ∃ value,
      constraint.expr.evalChecked σ = some value ∧ constraint.divisor ∣ value) :
    ∃ news, List.Forall₂ (AxisDenotes σ cells) done.axes news ∧ shape news = sizes ∧
      Regroup 0 view news (done.moved.map Prod.fst) ∧ plan.symbolNames <+: done.symbols ∧
      (folding.Exact → ∀ place ∈ done.moved,
        place.2.InRange done.axes.length done.symbols.length) ∧
      (folding.Exact → plan.tracksChannels = true → ∀ index, InBox sizes index →
        ∀ (k : Nat) place, plan.mentions k = true → done.moved[k]? = some place →
          place.2.value σ done.symbols index = (relayout tensor.shape sizes index)[k]?) := by
  have hfits := h.fits
  have hfits' := h.fits
  rw [h.shape_eq] at hfits
  rw [← hprod] at hfits'
  obtain ⟨news, axes, moved, hrelaid⟩ := reshapeLoop_relays hloop h.entries hsizes hpos hfits hfits'
    hcells hone hdivides
  have haxes : done.axes = axes := hrelaid.axes_eq
  have hmoved : done.moved = moved := hrelaid.moved_eq
  subst haxes hmoved
  refine ⟨news, hrelaid.denotes, hrelaid.shape_eq, hrelaid.regroup, hrelaid.symbols, hrelaid.within,
    ?_⟩
  intro hexact htracked index hbox k place hmentions hplace
  have hlt : k < plan.axes.length := by
    have hk := (List.getElem?_eq_some_iff.mp hplace).1
    rwa [← List.length_map Prod.fst, hrelaid.regroup.length_moved, ← h.length_eq] at hk
  have hentry : plan.entries[k]? =
      some ⟨k, plan.axes.get ⟨k, hlt⟩, plan.findPad k⟩ := by
    rw [PlanBuilder.entries, List.getElem?_map, List.getElem?_zipIdx, List.getElem?_eq_getElem hlt]
    simp
  have hvalue := hrelaid.follows hexact htracked done.symbols [] index [] List.prefix_rfl rfl hbox k
    _ place hentry hmentions hplace
  rw [List.nil_append, List.append_nil] at hvalue
  rw [hvalue, h.shape_eq]

theorem PlanBuilder.WellFormed.reshape (h : plan.WellFormed folding)
    (hfold : plan.foldReshape folding targetShape = some plan')
    (hregroup : ∀ done, plan.reshapeLoop folding plan.mentions plan.axes.length plan.entries
      targetShape ⟨[], [], [], plan.symbolNames⟩ = some done →
        ∀ (k p j : Nat), (done.moved.map Prod.fst)[k]? = some (some j) → j < done.axes.length ∧
          ((done.moved.map Prod.fst)[p]? = some (some j) → k = p)) :
    plan'.WellFormed folding := by
  obtain ⟨done, hloop, haxes, hperm, -, hpads, hplaces, hstages, -⟩ := foldReshape_eq_some hfold
  have hops := map_op_eq hstages
  have hlength : plan'.axes.length = done.axes.length := by
    rw [haxes, List.length_map, List.length_zipIdx]
  have hmoved := hregroup done hloop
  constructor
  · rw [hpads, hlength]
    intro pad hpad
    obtain ⟨old, hold, rfl⟩ := List.mem_map.mp hpad
    exact (hmoved _ 0 _ (hplaces old hold)).1
  · rw [hpads, List.map_map]
    have hnodup := h.pads_nodup
    rw [List.Nodup, List.pairwise_map] at hnodup ⊢
    refine hnodup.imp_of_mem fun {pad other} hpad hother hne heq => hne ?_
    have hplace := hplaces pad hpad
    rw [show done.place pad.axis = done.place other.axis from heq] at hplace
    exact (hmoved _ _ _ hplace).2 (hplaces other hother)
  · rw [hperm, hlength]
  · rw [hpads]
    intro pad hpad
    obtain ⟨old, hold, rfl⟩ := List.mem_map.mp hpad
    exact (h.fused_of_map_op hops hold).1
  · rw [hpads]
    intro pad hpad
    obtain ⟨old, hold, rfl⟩ := List.mem_map.mp hpad
    exact (h.fused_of_map_op hops hold).2

/-- A reshape of the plan reads what the reshape of the tensor has. -/
theorem Traces.reshape (h : Traces σ folding cells plan view tensor) (hcells : FitsI64 cells)
    (hone : 1 ≤ cells) (hfold : plan.foldReshape folding targetShape = some plan')
    (hdivides : plan'.Divisible σ)
    (happly : ChainOp.apply σ tensor (.reshape targetShape) = some tensor') :
    ∃ view', Traces σ folding cells plan' view' tensor' := by
  obtain ⟨done, hloop, haxes, -, hdivisibility, hpads, hplaces, hstages, -⟩ :=
    PlanBuilder.foldReshape_eq_some hfold
  simp only [ChainOp.apply, Option.bind_eq_bind, Option.bind_eq_some_iff] at happly
  obtain ⟨sizes, hsizes, happly⟩ := happly
  split at happly
  swap
  · cases happly
  rename_i hguard
  obtain ⟨hpos, hprod⟩ := hguard
  cases happly
  have hdivides' := hdivides
  rw [PlanBuilder.Divisible, hdivisibility] at hdivides'
  obtain ⟨news, hdenotes, rfl, hregroup, -⟩ := h.relays hcells hone hloop
    (sizes_of_mapM hsizes) hpos hprod hdivides'
  have hsounds : ∀ axis ∈ news, axis.Sound := by
    intro axis haxis
    obtain ⟨k, hk, rfl⟩ := List.mem_iff_getElem.mp haxis
    exact ((List.forall₂_iff_get.mp hdenotes).2 k (hdenotes.length_eq ▸ hk) hk).sound
  have hfound : ∀ {k j : Nat}, (done.moved.map Prod.fst)[k]? = some (some j) →
      plan'.findPad j = (plan.findPad k).map (PlanPad.renumber done.place) := by
    intro k j hk
    have hplace : done.place k = j := by
      rw [List.getElem?_map] at hk
      obtain ⟨moved, hmoved, hfst⟩ := Option.map_eq_some_iff.mp hk
      rw [PlanBuilder.Reshaped.place, hmoved, Option.bind_some, hfst, Option.getD_some]
    rw [← hplace]
    refine findPad_renumber hpads fun pad hpad hsame => ?_
    have hother := hplaces pad hpad
    rw [hsame, hplace] at hother
    exact hregroup.moved_injective hother hk
  refine ⟨news, h.wellFormed.reshape hfold ?_, ?_, ?_, rfl, hprod ▸ h.fits, ?_⟩
  · intro other hother k p j hk
    rw [hloop, Option.some.injEq] at hother
    subst hother
    refine ⟨?_, hregroup.moved_injective hk⟩
    rw [hdenotes.length_eq]
    exact (hregroup.kept_axis h.sound hsounds hk).2.1
  · rw [haxes]
    exact axesDenote_rename axisName hdenotes 0
  · intro j axis hj
    by_cases hkept : ∃ k : Nat, (done.moved.map Prod.fst)[k]? = some (some j)
    · obtain ⟨k, hk⟩ := hkept
      rw [hfound hk, padDenotes_renumber]
      exact h.pads k axis ((hregroup.kept_axis h.sound hsounds hk).2.2.trans hj)
    · have hnone : plan'.findPad j = none := by
        rw [PlanBuilder.findPad_eq_none, hpads]
        intro pad hpad hplace
        obtain ⟨old, hold, rfl⟩ := List.mem_map.mp hpad
        refine hkept ⟨old.axis, ?_⟩
        rw [hplaces old hold]
        exact congrArg (some ∘ some) hplace
      rw [hnone]
      rcases hregroup.kept_or_unpadded hj with ⟨k, hk, -⟩ | hfree
      · rw [Nat.zero_add] at hk
        exact absurd ⟨k, hk⟩ hkept
      · exact hfree
  · intro index hbox
    obtain ⟨hinside, hoffset, -⟩ := hregroup.relaid h.sound hsounds hbox
    have hold : InBox tensor.shape (relayout tensor.shape (shape news) index) :=
      inBox_relayout h.positive hpos hprod.symm hbox
    rw [← h.shape_eq] at hinside hoffset
    refine (h.elements _ hold).transfer (PlanBuilder.map_op_eq hstages) hinside.mp hoffset ?_
    intro k pad axis i hpad haxis hi houtside
    have hfind := PlanBuilder.findPad_eq_some hpad
    have hk := hplaces pad hfind.1
    rw [hfind.2] at hk
    have hkept := hregroup.kept h.sound hsounds hbox hk
    rw [← h.shape_eq] at hkept
    refine ⟨done.place k, pad.renumber done.place, axis, i, ?_, hkept.1.symm.trans haxis,
      hkept.2.symm.trans hi, houtside, rfl, rfl⟩
    rw [hfound hk, hpad]
    rfl

end

end SymReloc
