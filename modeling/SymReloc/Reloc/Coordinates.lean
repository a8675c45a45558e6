import SymReloc.Reloc.ChainMeaning

/-!
# Coordinates as affine expressions

The channel of a value stage is an affine expression of the current coordinates.  Where the
operators of affine expressions keep the value, so does the conversion of an extent; a run of
new dimensions recombines into its row-major number, and the coordinates of merged axes are
those of that number.
-/

namespace SymReloc

open SymExpr RowMajor
open PlanBuilder (Entry)

variable {α : Type} {σ : Name → Int} {folding : Folding α}

/-! ### The value of an affine expression -/

/-- The exact meaning of an operator: no value at a zero divisor. -/
def AffineExprKind.apply : AffineExprKind → Int → Int → Option Int
  | .add, l, r => some (l + r)
  | .mul, l, r => some (l * r)
  | .mod, l, r => if r = 0 then none else some (l.fmod r)
  | .floorDiv, l, r => if r = 0 then none else some (l.fdiv r)
  | .ceilDiv, l, r => if r = 0 then none else some (-(-l).fdiv r)

/-- The value at an index, the symbols under their names. -/
def AffineExpr.value (σ : Name → Int) (names : List Name) (index : List Int) (expr : AffineExpr) :
    Option Int :=
  expr.evalWith AffineExprKind.apply (fun k => index.getD k 0) fun k => σ (names.getD k [])

/-- The operators of affine expressions keep the value and add no position. -/
structure Folding.Exact (folding : Folding α) : Prop where
  keeps : ∀ kind lhs rhs σ names index value,
    (AffineExpr.binary kind lhs rhs).value σ names index = some value →
      (folding.affine kind lhs rhs).value σ names index = some value
  inRange : ∀ kind lhs rhs numDims numSymbols, lhs.InRange numDims numSymbols →
    rhs.InRange numDims numSymbols → (folding.affine kind lhs rhs).InRange numDims numSymbols

section
variable {names : List Name} {index : List Int} {lhs rhs : AffineExpr} {l r : Int}

theorem AffineExpr.value_binary {kind : AffineExprKind} {value : Int} :
    (AffineExpr.binary kind lhs rhs).value σ names index = some value ↔
      ∃ l r, lhs.value σ names index = some l ∧ rhs.value σ names index = some r ∧
        kind.apply l r = some value := by
  simp only [AffineExpr.value, AffineExpr.evalWith, Option.bind_eq_some_iff]
  constructor
  · rintro ⟨l, hl, r, hr, happly⟩
    exact ⟨l, r, hl, hr, happly⟩
  · rintro ⟨l, r, hl, hr, happly⟩
    exact ⟨l, hl, r, hr, happly⟩

theorem Folding.Exact.value (h : folding.Exact) (kind : AffineExprKind) {value : Int}
    (hl : lhs.value σ names index = some l) (hr : rhs.value σ names index = some r)
    (happly : kind.apply l r = some value) :
    (folding.affine kind lhs rhs).value σ names index = some value :=
  h.keeps _ _ _ _ _ _ _ (AffineExpr.value_binary.mpr ⟨l, r, hl, hr, happly⟩)

theorem affineSub_value (h : folding.Exact) (hl : lhs.value σ names index = some l)
    (hr : rhs.value σ names index = some r) :
    (PlanBuilder.affineSub folding lhs rhs).value σ names index = some (l - r) := by
  have hone : (AffineExpr.constant (-1)).value σ names index = some (-1) := rfl
  refine h.value .add hl (h.value .mul hr hone rfl) ?_
  rw [AffineExprKind.apply, mul_neg_one, sub_eq_add_neg]

/-- Converting an expression only appends to the table. -/
theorem prefix_symToAffine (expr : SymExpr) (names : List Name) :
    names <+: (PlanBuilder.symToAffine folding expr names).2 := by
  induction expr generalizing names with
  | constant value => exact List.prefix_rfl
  | symbol name =>
      unfold PlanBuilder.symToAffine
      split
      · exact List.prefix_rfl
      · exact List.prefix_append _ _
  | binary opcode lhs rhs ihl ihr => exact (ihl names).trans (ihr _)

/-- The converted expression has the value of the expression, in every larger table. -/
theorem symToAffine_value (h : folding.Exact) (index : List Int) {expr : SymExpr} {value : Int}
    {names' : List Name} (hvalue : expr.evalChecked σ = some value)
    (hnames : (PlanBuilder.symToAffine folding expr names).2 <+: names') :
    (PlanBuilder.symToAffine folding expr names).1.value σ names' index = some value := by
  induction expr generalizing names value with
  | constant c =>
      obtain ⟨-, rfl⟩ := checked64_eq_some.mp hvalue
      rfl
  | symbol name =>
      obtain ⟨-, rfl⟩ := checked64_eq_some.mp hvalue
      have hsymbol : ∀ {k : Nat} {table : List Name}, table <+: names' → table[k]? = some name →
          (AffineExpr.symbol k).value σ names' index = some (σ name) := by
        rintro k table ⟨rest, rfl⟩ hk
        have hlt := (List.getElem?_eq_some_iff.mp hk).1
        show some (σ ((table ++ rest).getD k [])) = some (σ name)
        rw [List.getD_eq_getElem?_getD, List.getElem?_append_left hlt, hk]
        rfl
      unfold PlanBuilder.symToAffine at hnames ⊢
      split
      · rename_i hmem
        rw [if_pos hmem] at hnames
        exact hsymbol hnames (List.getElem?_idxOf hmem)
      · rename_i hmem
        rw [if_neg hmem] at hnames
        exact hsymbol hnames List.getElem?_concat_length
  | binary opcode lhs rhs ihl ihr =>
      simp only [evalChecked, Option.bind_eq_some_iff] at hvalue
      obtain ⟨l, hl, r, hr, exact, happly, hfits⟩ := hvalue
      obtain ⟨-, rfl⟩ := checked64_eq_some.mp hfits
      have hleft := ihl hl ((prefix_symToAffine rhs _).trans hnames)
      have hright := ihr hr hnames
      cases opcode with
      | add => exact h.value .add hleft hright happly
      | mul => exact h.value .mul hleft hright happly
      | div => exact h.value .floorDiv hleft hright happly
      | mod => exact h.value .mod hleft hright happly
      | sub =>
          cases happly
          exact affineSub_value h hleft hright

end

/-! ### Positions -/

section
variable {numDims numSymbols numDims' numSymbols' : Nat} {expr lhs rhs : AffineExpr}

theorem AffineExpr.InRange.mono (h : expr.InRange numDims numSymbols) (hdims : numDims ≤ numDims')
    (hsymbols : numSymbols ≤ numSymbols') : expr.InRange numDims' numSymbols' := by
  induction expr with
  | dim position => exact Nat.lt_of_lt_of_le h hdims
  | symbol position => exact Nat.lt_of_lt_of_le h hsymbols
  | constant value => trivial
  | binary kind lhs rhs ihl ihr => exact ⟨ihl h.1, ihr h.2⟩

theorem affineSub_inRange (h : folding.Exact) (hl : lhs.InRange numDims numSymbols)
    (hr : rhs.InRange numDims numSymbols) :
    (PlanBuilder.affineSub folding lhs rhs).InRange numDims numSymbols :=
  h.inRange _ _ _ _ _ hl (h.inRange _ _ _ _ _ hr trivial)

/-- A converted expression mentions no dimension, and no symbol beyond the table. -/
theorem symToAffine_inRange (h : folding.Exact) (numDims : Nat) (expr : SymExpr)
    (names : List Name) : (PlanBuilder.symToAffine folding expr names).1.InRange numDims
      (PlanBuilder.symToAffine folding expr names).2.length := by
  induction expr generalizing names with
  | constant value => trivial
  | symbol name =>
      unfold PlanBuilder.symToAffine
      split
      · rename_i hmem
        exact List.idxOf_lt_length_of_mem hmem
      · show names.length < (names ++ [name]).length
        rw [List.length_append]
        exact Nat.lt_succ_self _
  | binary opcode lhs rhs ihl ihr =>
      have hgrows : (PlanBuilder.symToAffine folding lhs names).2 <+:
          (PlanBuilder.symToAffine folding rhs (PlanBuilder.symToAffine folding lhs names).2).2 :=
        prefix_symToAffine _ _
      have hleft := (ihl names).mono le_rfl hgrows.length_le
      have hright := ihr (PlanBuilder.symToAffine folding lhs names).2
      cases opcode with
      | add => exact h.inRange _ _ _ _ _ hleft hright
      | mul => exact h.inRange _ _ _ _ _ hleft hright
      | div => exact h.inRange _ _ _ _ _ hleft hright
      | mod => exact h.inRange _ _ _ _ _ hleft hright
      | sub => exact affineSub_inRange h hleft hright

end

/-! ### A run of new dimensions -/

section
variable {names symbols : List Name} {before after index sizes : List Int}

theorem dim_value (hk : k = before.length) :
    (AffineExpr.dim k).value σ names (before ++ i :: after) = some i := by
  show some ((before ++ i :: after).getD k 0) = some i
  rw [hk, List.getD_eq_getElem?_getD, List.getElem?_append_right le_rfl, Nat.sub_self]
  rfl

theorem prefix_recombine (first : Nat) (outer : List SymExpr) (symbols : List Name)
    (sum stride : AffineExpr) :
    symbols <+: (PlanBuilder.recombine folding first outer symbols sum stride).2 := by
  induction outer generalizing symbols sum stride with
  | nil => exact List.prefix_rfl
  | cons target outer ih =>
      cases outer with
      | nil => exact List.prefix_rfl
      | cons next outer => exact (prefix_symToAffine target symbols).trans (ih _ _ _)

theorem recombine_inRange (h : folding.Exact) {first numDims : Nat} {outer : List SymExpr}
    {sum stride : AffineExpr} (hdims : first + outer.length ≤ numDims)
    (hsum : sum.InRange numDims symbols.length) (hstride : stride.InRange numDims symbols.length) :
    (PlanBuilder.recombine folding first outer symbols sum stride).1.InRange numDims
      (PlanBuilder.recombine folding first outer symbols sum stride).2.length := by
  induction outer generalizing symbols sum stride with
  | nil => exact hsum
  | cons target outer ih =>
      rw [List.length_cons, ← Nat.add_assoc] at hdims
      have hdim : (AffineExpr.dim (first + outer.length)).InRange numDims symbols.length := hdims
      have hsum' := h.inRange .add _ _ _ _ hsum (h.inRange .mul _ _ _ _ hdim hstride)
      cases outer with
      | nil => exact hsum'
      | cons next outer =>
          have hgrows : symbols <+: (PlanBuilder.symToAffine folding target symbols).2 :=
            prefix_symToAffine _ _
          exact ih (by omega) (hsum'.mono le_rfl hgrows.length_le)
            (h.inRange .mul _ _ _ _ (hstride.mono le_rfl hgrows.length_le)
              (symToAffine_inRange h numDims target symbols))

/-- From the innermost dimension on, the sum gains the number of what is left. -/
theorem recombine_value (h : folding.Exact) {outer : List SymExpr} {sum stride : AffineExpr}
    {s d : Int} (hsizes : Sizes σ outer sizes) (hlength : sizes.length = index.length)
    (hnames : (PlanBuilder.recombine folding before.length outer symbols sum stride).2 <+: names)
    (hsum : sum.value σ names (before ++ index.reverse ++ after) = some s)
    (hstride : stride.value σ names (before ++ index.reverse ++ after) = some d) :
    (PlanBuilder.recombine folding before.length outer symbols sum stride).1.value σ names
      (before ++ index.reverse ++ after) = some (s + d * flat sizes.reverse index.reverse) := by
  induction hsizes generalizing index after symbols sum stride s d with
  | nil =>
      obtain rfl := List.length_eq_zero_iff.mp hlength.symm
      show _ = some (s + d * 0)
      rw [mul_zero, add_zero]
      exact hsum
  | @cons target size outer sizes hsize hrest ih =>
      cases index with
      | nil => cases hlength
      | cons i index =>
          rw [List.length_cons, List.length_cons, Nat.add_right_cancel_iff] at hlength
          have hindex : before ++ (i :: index).reverse ++ after =
              before ++ index.reverse ++ i :: after := by
            simp
          rw [hindex] at hsum hstride ⊢
          have hcount : before.length + outer.length = (before ++ index.reverse).length := by
            rw [List.length_append, List.length_reverse, ← hlength, hrest.length_eq]
          have hsum' := h.value .add hsum (h.value .mul (dim_value hcount) hstride rfl) rfl
          have hflat : flat (size :: sizes).reverse (i :: index).reverse =
              flat sizes.reverse index.reverse * size + i := by
            rw [List.reverse_cons, List.reverse_cons, flat_append (by simpa using hlength)]
            simp [flat]
          rw [hflat]
          cases hrest with
          | nil =>
              obtain rfl := List.length_eq_zero_iff.mp hlength.symm
              rw [show s + d * (flat [].reverse [].reverse * size + i) = s + i * d by
                simp [flat, mul_comm]]
              exact hsum'
          | @cons next nextSize outer sizes hnext hrest =>
              have hextent := symToAffine_value h (before ++ index.reverse ++ i :: after)
                hsize ((prefix_recombine _ (next :: outer) _ _ _).trans hnames)
              have hfound := ih hlength hnames hsum' (h.value .mul hstride hextent rfl)
              rw [show s + d * (flat (nextSize :: sizes).reverse index.reverse * size + i) =
                s + i * d + d * size * flat (nextSize :: sizes).reverse index.reverse by ring]
              exact hfound

theorem recombined_inRange (h : folding.Exact) {first : Nat} {targets : List SymExpr}
    (hsizes : Sizes σ targets sizes) :
    (PlanBuilder.recombined folding first targets symbols).1.InRange (first + sizes.length)
      (PlanBuilder.recombined folding first targets symbols).2.length := by
  refine recombine_inRange h ?_ trivial trivial
  rw [List.length_reverse, hsizes.length_eq]

/-- A run of dimensions recombines into the row-major number of its index. -/
theorem recombined_value (h : folding.Exact) {targets : List SymExpr}
    (hsizes : Sizes σ targets sizes) (hbox : InBox sizes index)
    (hnames : (PlanBuilder.recombined folding before.length targets symbols).2 <+: names) :
    (PlanBuilder.recombined folding before.length targets symbols).1.value σ names
      (before ++ index ++ after) = some (flat sizes index) := by
  have hlength : sizes.reverse.length = index.reverse.length := by simpa using hbox.length_eq
  have hzero : (AffineExpr.constant 0).value σ names (before ++ index.reverse.reverse ++ after) =
      some 0 := rfl
  have hone : (AffineExpr.constant 1).value σ names (before ++ index.reverse.reverse ++ after) =
      some 1 := rfl
  have hvalue := recombine_value h (List.rel_reverse hsizes) hlength hnames hzero hone
  rw [List.reverse_reverse, List.reverse_reverse, zero_add, one_mul] at hvalue
  exact hvalue

end

/-! ### Merged axes -/

section
variable {names symbols : List Name} {index sizes : List Int} {entries : List Entry}

theorem prefix_innerProduct (entries : List Entry) (product : AffineExpr) (symbols : List Name) :
    symbols <+: (PlanBuilder.innerProduct folding entries product symbols).2 := by
  induction entries generalizing product symbols with
  | nil => exact List.prefix_rfl
  | cons entry entries ih => exact (prefix_symToAffine _ symbols).trans (ih _ _)

theorem innerProduct_value (h : folding.Exact) {product : AffineExpr} {p : Int}
    (hsizes : Sizes σ (entries.map fun entry => entry.axis.extent) sizes)
    (hnames : (PlanBuilder.innerProduct folding entries product symbols).2 <+: names)
    (hproduct : product.value σ names index = some p) :
    (PlanBuilder.innerProduct folding entries product symbols).1.value σ names index =
      some (p * sizes.prod) := by
  induction entries generalizing product symbols sizes p with
  | nil =>
      obtain rfl := List.forall₂_nil_left_iff.mp hsizes
      rw [List.prod_nil, mul_one]
      exact hproduct
  | cons entry entries ih =>
      obtain ⟨size, sizes, hsize, hrest, rfl⟩ := List.forall₂_cons_left_iff.mp hsizes
      rw [List.prod_cons, ← mul_assoc]
      have hextent := symToAffine_value h index hsize
        ((prefix_innerProduct entries _ _).trans hnames)
      exact ih hrest hnames (h.value .mul hproduct hextent rfl)

theorem innerProduct_inRange (h : folding.Exact) {numDims : Nat} {product : AffineExpr}
    (hproduct : product.InRange numDims symbols.length) :
    (PlanBuilder.innerProduct folding entries product symbols).1.InRange numDims
      (PlanBuilder.innerProduct folding entries product symbols).2.length := by
  induction entries generalizing product symbols with
  | nil => exact hproduct
  | cons entry entries ih =>
      have hgrows : symbols <+: (PlanBuilder.symToAffine folding entry.axis.extent symbols).2 :=
        prefix_symToAffine _ _
      exact ih (h.inRange .mul _ _ _ _ (hproduct.mono le_rfl hgrows.length_le)
        (symToAffine_inRange h numDims _ symbols))

theorem prefix_mergedCoordinates (referenced : Nat → Bool) (merged : AffineExpr) (outermost : Bool)
    (entries : List Entry) (symbols : List Name) :
    symbols <+:
      (PlanBuilder.mergedCoordinates folding referenced merged outermost entries symbols).2 := by
  induction entries generalizing outermost symbols with
  | nil => exact List.prefix_rfl
  | cons entry entries ih =>
      unfold PlanBuilder.mergedCoordinates
      split
      · have hinner : symbols <+:
            (PlanBuilder.innerProduct folding entries (.constant 1) symbols).2 :=
          prefix_innerProduct _ _ _
        cases outermost with
        | true => exact hinner.trans (ih _ _)
        | false => exact hinner.trans ((prefix_symToAffine _ _).trans (ih _ _))
      · exact ih _ _

theorem emod_mul_ediv {p : Int} (n size : Int) (hp : 1 ≤ p) :
    n % (p * size) / p = n / p % size := by
  have hquotient : n / (p * size) = n / p / size := Int.ediv_ediv_of_nonneg (by omega) |>.symm
  rw [Int.emod_def, Int.emod_def, mul_assoc, hquotient, Int.sub_mul_ediv_left _ _ (by omega)]

/-- The coordinates behind the outermost one: all of them with a remainder. -/
theorem unflat_emod_cons {size n : Int} {sizes : List Int} (hpos : Positive sizes) :
    unflat (size :: sizes) (n % (size :: sizes).prod) =
      n / sizes.prod % size :: unflat sizes (n % sizes.prod) := by
  have hrest := hpos.one_le_prod
  rw [unflat, List.prod_cons, mul_comm, emod_mul_ediv n size hrest,
    Int.emod_emod_of_dvd _ (dvd_mul_right _ _)]

theorem map_fst_mergedCoordinates (referenced : Nat → Bool) (merged : AffineExpr)
    (outermost : Bool) (entries : List Entry) (symbols : List Name) :
    (PlanBuilder.mergedCoordinates folding referenced merged outermost entries symbols).1.map
      Prod.fst = entries.map fun _ => none := by
  induction entries generalizing outermost symbols with
  | nil => rfl
  | cons entry entries ih =>
      unfold PlanBuilder.mergedCoordinates
      split <;> exact congrArg (none :: ·) (ih _ _)

theorem mergedCoordinates_inRange (h : folding.Exact) {numDims : Nat} {referenced : Nat → Bool}
    {merged : AffineExpr} {outermost : Bool} (hmerged : merged.InRange numDims symbols.length) :
    ∀ place ∈ (PlanBuilder.mergedCoordinates folding referenced merged outermost entries symbols).1,
      place.2.InRange numDims
        (PlanBuilder.mergedCoordinates folding referenced merged outermost entries
          symbols).2.length := by
  induction entries generalizing outermost symbols with
  | nil => exact fun place hplace => absurd hplace List.not_mem_nil
  | cons entry entries ih =>
      intro place hplace
      unfold PlanBuilder.mergedCoordinates at hplace ⊢
      split at hplace
      · rename_i hreferenced
        rw [if_pos hreferenced]
        have hgrows : symbols <+:
            (PlanBuilder.innerProduct folding entries (.constant 1) symbols).2 :=
          prefix_innerProduct _ _ _
        have hinner : (PlanBuilder.innerProduct folding entries (.constant 1) symbols).1.InRange
            numDims
            (PlanBuilder.innerProduct folding entries (.constant 1) symbols).2.length :=
          innerProduct_inRange h trivial
        have hquotient := h.inRange .floorDiv _ _ _ _ (hmerged.mono le_rfl hgrows.length_le) hinner
        cases outermost with
        | true =>
            rcases List.mem_cons.mp hplace with rfl | hrest
            · exact hquotient.mono le_rfl (prefix_mergedCoordinates _ _ _ _ _).length_le
            · exact ih (hmerged.mono le_rfl hgrows.length_le) place hrest
        | false =>
            have hgrows' : (PlanBuilder.innerProduct folding entries (.constant 1) symbols).2 <+:
                (PlanBuilder.symToAffine folding entry.axis.extent
                  (PlanBuilder.innerProduct folding entries (.constant 1) symbols).2).2 :=
              prefix_symToAffine _ _
            rcases List.mem_cons.mp hplace with rfl | hrest
            · refine AffineExpr.InRange.mono ?_ le_rfl
                (prefix_mergedCoordinates _ _ _ _ _).length_le
              exact h.inRange .mod _ _ _ _ (hquotient.mono le_rfl hgrows'.length_le)
                (symToAffine_inRange h numDims _ _)
            · exact ih (hmerged.mono le_rfl (hgrows.trans hgrows').length_le) place hrest
      · rename_i hreferenced
        rw [if_neg hreferenced]
        rcases List.mem_cons.mp hplace with rfl | hrest
        · trivial
        · exact ih hmerged place hrest

/-- A merged axis that some channel mentions has its coordinate in the merged number. -/
theorem mergedCoordinates_value (h : folding.Exact) {referenced : Nat → Bool} {merged : AffineExpr}
    {outermost : Bool} {n : Int} {q : Nat} {entry : Entry} {place : Option Nat × AffineExpr}
    (hsizes : Sizes σ (entries.map fun entry => entry.axis.extent) sizes) (hpos : Positive sizes)
    (hmerged : merged.value σ names index = some n)
    (hnames : (PlanBuilder.mergedCoordinates folding referenced merged outermost entries
      symbols).2 <+: names)
    (hentry : entries[q]? = some entry) (hreferenced : referenced entry.index = true)
    (hplace : (PlanBuilder.mergedCoordinates folding referenced merged outermost entries
      symbols).1[q]? = some place) :
    place.2.value σ names index =
      (unflat sizes (if outermost then n else n % sizes.prod))[q]? := by
  induction entries generalizing outermost symbols sizes q with
  | nil => cases hentry
  | cons head entries ih =>
      obtain ⟨size, sizes, hsize, hrest, rfl⟩ := List.forall₂_cons_left_iff.mp hsizes
      rw [positive_cons] at hpos
      have hone := hpos.2.one_le_prod
      have hunflat : unflat (size :: sizes) (if outermost then n else n % (size :: sizes).prod) =
          (if outermost then n / sizes.prod else n / sizes.prod % size) ::
            unflat sizes (n % sizes.prod) := by
        cases outermost with
        | true => rfl
        | false => exact unflat_emod_cons hpos.2
      rw [hunflat]
      unfold PlanBuilder.mergedCoordinates at hnames hplace
      cases q with
      | zero =>
          rw [List.getElem?_cons_zero, Option.some.injEq] at hentry
          rw [List.getElem?_cons_zero]
          subst hentry
          rw [if_pos hreferenced] at hnames hplace
          rw [List.getElem?_cons_zero, Option.some.injEq] at hplace
          subst hplace
          have hinner := (prefix_mergedCoordinates referenced merged false entries _).trans hnames
          have hquotient : ∀ {table : List Name}, (PlanBuilder.innerProduct folding entries
              (.constant 1) symbols).2 <+: table → table <+: names →
              (folding.affine .floorDiv merged (PlanBuilder.innerProduct folding entries
                (.constant 1) symbols).1).value σ names index = some (n / sizes.prod) := by
            intro table htable hnames
            have hstart : (AffineExpr.constant 1).value σ names index = some 1 := rfl
            have hproduct := innerProduct_value h hrest (htable.trans hnames) hstart
            rw [one_mul] at hproduct
            refine h.value .floorDiv hmerged hproduct ?_
            rw [AffineExprKind.apply, if_neg (by omega), Int.fdiv_eq_ediv_of_nonneg _ (by omega)]
          cases outermost with
          | true => exact hquotient List.prefix_rfl hinner
          | false =>
              have hextent := symToAffine_value h index hsize hinner
              refine h.value .mod (hquotient (prefix_symToAffine _ _) hinner) hextent ?_
              rw [AffineExprKind.apply, if_neg (by omega), Int.fmod_eq_emod_of_nonneg _ (by omega)]
              rfl
      | succ q =>
          rw [List.getElem?_cons_succ] at hentry ⊢
          split at hplace
          · rename_i hhead
            rw [if_pos hhead] at hnames
            rw [List.getElem?_cons_succ] at hplace
            exact ih hrest hpos.2 hnames hentry hplace
          · rename_i hhead
            rw [if_neg hhead] at hnames
            rw [List.getElem?_cons_succ] at hplace
            exact ih hrest hpos.2 hnames hentry hplace

end

end SymReloc
