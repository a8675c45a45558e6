import SymReloc.Frontend.ExprTidy

/-!
# What equal normal forms say

Equal normal forms have equal values, and sums and products may be reordered and regrouped.
Overflowing arithmetic is kept structural only where a floor division or a modulo fails its
checked fold: a sum or a product whose checked fold fails is folded without checks by its
assembly.
-/

namespace SymReloc.Frontend.Expr

/-! ### Values -/

def symbols : Expr → List String
  | const _ => []
  | symbol name => [name]
  | add lhs rhs => lhs.symbols ++ rhs.symbols
  | mul lhs rhs => lhs.symbols ++ rhs.symbols
  | floorDiv lhs _ _ => lhs.symbols
  | mod lhs _ _ => lhs.symbols

/-- Every symbol has a binding. -/
def Bound (bindings : Bindings) (e : Expr) : Prop :=
  ∀ name ∈ e.symbols, (bindings.lookup name).isSome

/-- The integer value; a symbol without a binding counts as zero. -/
def value (bindings : Bindings) : Expr → Int
  | const value => value
  | symbol name => (bindings.lookup name).getD 0
  | add lhs rhs => lhs.value bindings + rhs.value bindings
  | mul lhs rhs => lhs.value bindings * rhs.value bindings
  | floorDiv lhs divisor _ => (lhs.value bindings).fdiv divisor
  | mod lhs divisor _ => (lhs.value bindings).fmod divisor

@[simp] theorem value_node (bindings : Bindings) (kind : Commutative) (lhs rhs : Expr) :
    (kind.node lhs rhs).value bindings =
      kind.combine (lhs.value bindings) (rhs.value bindings) := by
  cases kind <;> rfl

/-- Evaluation without checks gives the value where every symbol is bound. -/
theorem evaluate_unchecked {bindings : Bindings} {e : Expr} (h : e.Bound bindings) :
    e.evaluate false bindings = .ok (e.value bindings) := by
  induction e with
  | const v => rfl
  | symbol name =>
      obtain ⟨v, hv⟩ := Option.isSome_iff_exists.mp (h name List.mem_cons_self)
      simp [evaluate, value, hv, i64]
  | add lhs rhs ihl ihr =>
      have hl := ihl fun name hname => h name (List.mem_append_left _ hname)
      have hr := ihr fun name hname => h name (List.mem_append_right _ hname)
      simp [evaluate, value, hl, hr, i64, bind, Except.bind]
  | mul lhs rhs ihl ihr =>
      have hl := ihl fun name hname => h name (List.mem_append_left _ hname)
      have hr := ihr fun name hname => h name (List.mem_append_right _ hname)
      simp [evaluate, value, hl, hr, i64, bind, Except.bind]
  | floorDiv lhs divisor positive ih =>
      simp [evaluate, value, ih h, i64, bind, Except.bind]
  | mod lhs divisor positive ih =>
      simp [evaluate, value, ih h, i64, bind, Except.bind]

/-! ### The value of a normal form -/

theorem value_eq_terms (bindings : Bindings) (kind : Commutative) (e : Expr) :
    e.value bindings = kind.combine (total kind ((terms kind e).map (value bindings)))
      (coefficient kind e) := by
  induction e using node_induction kind with
  | hconst v =>
      rw [terms_const, coefficient_const]
      exact (kind.identity_combine v).symm
  | hwhole e hwhole =>
      rw [terms_of_whole hwhole, coefficient_of_whole hwhole, kind.combine_identity]
      exact (kind.combine_identity _).symm
  | hnode lhs rhs ihl ihr =>
      rw [value_node, ihl, ihr, terms_node, coefficient_node, List.map_append, total_append]
      cases kind <;> simp only [Commutative.combine] <;> ring

theorem value_reduce (bindings : Bindings) (kind : Commutative) (list : List Expr) :
    (reduce kind list).value bindings = total kind (list.map (value bindings)) := by
  induction list using List.reverseRecOn with
  | nil => rfl
  | append_singleton list last ih =>
      by_cases hnil : list = []
      · subst hnil
        exact (kind.combine_identity _).symm
      · rw [reduce_concat kind hnil, value_node, ih, List.map_append, total_append]
        simp [total]

theorem value_assemble (bindings : Bindings) (kind : Commutative) (list : List Expr)
    (constant : Int) : (assemble kind list constant).value bindings =
      kind.combine (total kind (list.map (value bindings))) constant := by
  by_cases hzero : kind = .mul ∧ constant = 0
  · obtain ⟨rfl, rfl⟩ := hzero
    rw [assemble_zero]
    exact (Int.mul_zero _).symm
  · rw [assemble_of_ne hzero, value_reduce, total_perm kind ((sortTerms_perm _).map _)]
    unfold gathered
    split
    · rw [List.map_append, total_append]
      simp [total, value]
    · rename_i hconstant
      push Not at hconstant
      rw [hconstant.1, kind.combine_identity]

theorem value_commutative (bindings : Bindings) (kind : Commutative) (lhs rhs : Expr) :
    (commutative kind lhs rhs).value bindings =
      kind.combine (lhs.value bindings) (rhs.value bindings) := by
  rw [commutative_eq, value_assemble, ← terms_node, ← coefficient_node, ← value_eq_terms,
    value_node]

theorem value_foldConstant {e : Expr} (bindings : Bindings)
    (hclosed : ∀ v, e.evaluate true [] = .ok v → e.value bindings = v) :
    (foldConstant e).value bindings = e.value bindings := by
  rcases stuck_or_value e with hstuck | ⟨v, hv⟩
  · rw [foldConstant_of_stuck hstuck]
  · rw [foldConstant_eq hv, hclosed v hv]
    rfl

/-- What has a checked value without bindings has it under all bindings. -/
theorem value_of_closed {e : Expr} {v : Int} (bindings : Bindings)
    (h : e.evaluate true [] = .ok v) : e.value bindings = v := by
  induction e generalizing v with
  | const value => exact (i64_eq_ok.mp h).2
  | symbol name => cases h
  | add lhs rhs ihl ihr =>
      obtain ⟨l, r, hl, hr, -, rfl⟩ := (evaluate_node_eq_ok .add).mp h
      rw [value, ihl hl, ihr hr]
      rfl
  | mul lhs rhs ihl ihr =>
      obtain ⟨l, r, hl, hr, -, rfl⟩ := (evaluate_node_eq_ok .mul).mp h
      rw [value, ihl hl, ihr hr]
      rfl
  | floorDiv lhs divisor positive ih =>
      simp only [evaluate, bind_eq_ok, i64_eq_ok] at h
      obtain ⟨l, hl, d, ⟨-, rfl⟩, -, rfl⟩ := h
      rw [value, ih hl]
  | mod lhs divisor positive ih =>
      simp only [evaluate, bind_eq_ok, i64_eq_ok] at h
      obtain ⟨l, hl, d, ⟨-, rfl⟩, -, rfl⟩ := h
      rw [value, ih hl]

theorem value_normalizeExpr {e : Expr} (h : e.Valid) (bindings : Bindings) :
    e.normalizeExpr.value bindings = e.value bindings := by
  induction e with
  | const v => rfl
  | symbol name => rfl
  | add lhs rhs ihl ihr =>
      have hnode := normalizeExpr_node .add h.1 h.2
      calc (add lhs rhs).normalizeExpr.value bindings
          = (commutative .add lhs.normalizeExpr rhs.normalizeExpr).value bindings :=
            congrArg (value bindings) hnode
        _ = (add lhs rhs).value bindings := by
            rw [value_commutative, ihl h.1, ihr h.2]
            rfl
  | mul lhs rhs ihl ihr =>
      have hnode := normalizeExpr_node .mul h.1 h.2
      calc (mul lhs rhs).normalizeExpr.value bindings
          = (commutative .mul lhs.normalizeExpr rhs.normalizeExpr).value bindings :=
            congrArg (value bindings) hnode
        _ = (mul lhs rhs).value bindings := by
            rw [value_commutative, ihl h.1, ihr h.2]
            rfl
  | floorDiv lhs divisor positive ih =>
      rw [normalizeExpr]
      split
      · rename_i hone
        rw [ih h, value, hone, Int.fdiv_one]
      · rw [value_foldConstant bindings fun v => value_of_closed bindings, value, ih h]
        rfl
  | mod lhs divisor positive ih =>
      rw [normalizeExpr]
      split
      · rename_i hone
        rw [value, value, hone, Int.fmod_one]
      · rw [value_foldConstant bindings fun v => value_of_closed bindings, value, ih h]
        rfl

/-! ### Order and grouping -/

/-- Two expressions that differ in the order and the grouping of sums and products, at any
    depth. -/
inductive Regrouped : Expr → Expr → Prop
  | refl (e : Expr) : Regrouped e e
  | symm {a b : Expr} : Regrouped a b → Regrouped b a
  | trans {a b c : Expr} : Regrouped a b → Regrouped b c → Regrouped a c
  | comm (kind : Commutative) (a b : Expr) : Regrouped (kind.node a b) (kind.node b a)
  | assoc (kind : Commutative) (a b c : Expr) :
      Regrouped (kind.node (kind.node a b) c) (kind.node a (kind.node b c))
  | node (kind : Commutative) {a a' b b' : Expr} : Regrouped a a' → Regrouped b b' →
      Regrouped (kind.node a b) (kind.node a' b')
  | floorDiv {a a' : Expr} (divisor : Int) (positive : 0 < divisor) : Regrouped a a' →
      Regrouped (floorDiv a divisor positive) (floorDiv a' divisor positive)
  | mod {a a' : Expr} (divisor : Int) (positive : 0 < divisor) : Regrouped a a' →
      Regrouped (mod a divisor positive) (mod a' divisor positive)

theorem Regrouped.valid_iff {a b : Expr} (h : Regrouped a b) : a.Valid ↔ b.Valid := by
  induction h with
  | refl e => exact Iff.rfl
  | symm _ ih => exact ih.symm
  | trans _ _ ihl ihr => exact ihl.trans ihr
  | comm kind a b =>
      rw [valid_node, valid_node]
      exact and_comm
  | assoc kind a b c =>
      simp only [valid_node]
      exact and_assoc
  | node kind _ _ ihl ihr => rw [valid_node, valid_node, ihl, ihr]
  | floorDiv divisor positive _ ih => exact ih
  | mod divisor positive _ ih => exact ih

theorem Regrouped.normalizeExpr_eq {a b : Expr} (h : Regrouped a b) (hvalid : a.Valid) :
    a.normalizeExpr = b.normalizeExpr := by
  induction h with
  | refl e => rfl
  | symm hab ih => exact (ih (hab.valid_iff.mpr hvalid)).symm
  | trans hab _ ihl ihr => exact (ihl hvalid).trans (ihr (hab.valid_iff.mp hvalid))
  | comm kind a b =>
      obtain ⟨ha, hb⟩ := valid_node.mp hvalid
      rw [normalizeExpr_node kind ha hb, normalizeExpr_node kind hb ha]
      exact commutative_comm kind (normalizeExpr_valid_tidy ha).1
        (normalizeExpr_valid_tidy hb).1
  | assoc kind a b c =>
      obtain ⟨hab, hc⟩ := valid_node.mp hvalid
      obtain ⟨ha, hb⟩ := valid_node.mp hab
      rw [normalizeExpr_node kind hab hc, normalizeExpr_node kind ha hb,
        normalizeExpr_node kind ha (valid_node.mpr ⟨hb, hc⟩), normalizeExpr_node kind hb hc]
      exact commutative_assoc kind (normalizeExpr_valid_tidy ha).1
        (normalizeExpr_valid_tidy hb).1 (normalizeExpr_valid_tidy hc).1
  | node kind hl hr ihl ihr =>
      obtain ⟨ha, hb⟩ := valid_node.mp hvalid
      rw [normalizeExpr_node kind ha hb, ihl ha, ihr hb,
        normalizeExpr_node kind (hl.valid_iff.mp ha) (hr.valid_iff.mp hb)]
  | floorDiv divisor positive _ ih =>
      rw [normalizeExpr, normalizeExpr, ih hvalid]
  | mod divisor positive _ ih =>
      rw [normalizeExpr, normalizeExpr, ih hvalid]

/-! ### Normal forms that are constants -/

/-- A fold that fails its check keeps the expression structural: at a floor division or a modulo
    by other than one, where no product vanishes around it. -/
def Structural : Expr → Prop
  | const _ => False
  | symbol _ => True
  | add lhs rhs => lhs.Structural ∨ rhs.Structural
  | mul lhs rhs => (lhs.Structural ∨ rhs.Structural) ∧
      ¬ (¬ lhs.Structural ∧ lhs.value [] = 0) ∧ ¬ (¬ rhs.Structural ∧ rhs.value [] = 0)
  | floorDiv lhs divisor _ => lhs.Structural ∨
      (divisor ≠ 1 ∧ ¬ (FitsI64 (lhs.value []) ∧ FitsI64 divisor))
  | mod lhs divisor _ => divisor ≠ 1 ∧
      (lhs.Structural ∨ ¬ (FitsI64 (lhs.value []) ∧ FitsI64 divisor))

theorem assemble_nil (kind : Commutative) (constant : Int) :
    assemble kind [] constant = const constant := by
  by_cases hzero : kind = .mul ∧ constant = 0
  · obtain ⟨rfl, rfl⟩ := hzero
    exact assemble_zero []
  · rw [assemble_of_ne hzero]
    simp [gathered, sortTerms, reduce]

theorem Tidy.assembled {e : Expr} (h : e.Tidy) (kind : Commutative) : Assembled kind e := by
  rcases whole_cases kind e with ⟨v, rfl⟩ | ⟨lhs, rhs, rfl⟩ | hwhole
  · rw [Assembled, terms_const, coefficient_const, assemble_nil]
  · exact (tidy_node.mp h).2.2.1
  · rw [Assembled, terms_of_whole hwhole, coefficient_of_whole hwhole,
      assemble_of_ne identity_ne_zero, gathered_identity (List.cons_ne_nil _ _)]
    rfl

theorem Tidy.const_of_terms {e : Expr} (h : e.Tidy) {kind : Commutative}
    (hterms : terms kind e = []) : e = const (coefficient kind e) := by
  have hown := h.assembled kind
  rw [Assembled, hterms, assemble_nil] at hown
  exact hown.symm

theorem Tidy.zero_of_coefficient {e : Expr} (h : e.Tidy) (hzero : coefficient .mul e = 0) :
    e = const 0 := by
  have hown := h.assembled .mul
  rw [Assembled, hzero, assemble_zero] at hown
  exact hown.symm

/-- Two tidy operands give a constant if both are constants, or one is zero in a product. -/
theorem commutative_eq_const {kind : Commutative} {lhs rhs : Expr} (hl : lhs.Tidy)
    (hr : rhs.Tidy) : (∃ v, commutative kind lhs rhs = const v) ↔
      ((∃ v, lhs = const v) ∧ ∃ v, rhs = const v) ∨
        (kind = .mul ∧ (lhs = const 0 ∨ rhs = const 0)) := by
  constructor
  · rintro ⟨v, hv⟩
    rw [commutative_eq] at hv
    by_cases hzero : kind = .mul ∧ kind.combine (coefficient kind lhs) (coefficient kind rhs) = 0
    · obtain ⟨rfl, hproduct⟩ := hzero
      refine .inr ⟨rfl, ?_⟩
      rcases Int.mul_eq_zero.mp hproduct with hcl | hcr
      · exact .inl (hl.zero_of_coefficient hcl)
      · exact .inr (hr.zero_of_coefficient hcr)
    · rw [assemble_of_ne hzero] at hv
      have hterms := terms_reduce_perm (whole_terms kind lhs rhs) (sortTerms_perm
        (gathered kind _ (kind.combine (coefficient kind lhs) (coefficient kind rhs))))
      rw [hv, terms_const] at hterms
      obtain ⟨htl, htr⟩ := List.append_eq_nil_iff.mp (List.nil_perm.mp hterms)
      exact .inl ⟨⟨_, hl.const_of_terms htl⟩, _, hr.const_of_terms htr⟩
  · rintro (⟨⟨a, rfl⟩, b, rfl⟩ | ⟨rfl, rfl | rfl⟩)
    · exact ⟨_, commutative_const kind a b⟩
    · refine ⟨0, ?_⟩
      have hproduct : Commutative.mul.combine 0 (coefficient .mul rhs) = 0 := Int.zero_mul _
      rw [commutative_eq, coefficient_const, hproduct, assemble_zero]
    · refine ⟨0, ?_⟩
      have hproduct : Commutative.mul.combine (coefficient .mul lhs) 0 = 0 := Int.mul_zero _
      rw [commutative_eq, coefficient_const, hproduct, assemble_zero]

/-- The fold of a division keeps a constant exactly where its operand is one and passes the
    checks. -/
theorem foldConstant_eq_const {e lhs : Expr} (divisor : Int) (quotient : Int → Int)
    (hfits : ∀ v, FitsI64 v → FitsI64 divisor → FitsI64 (quotient v)) (hne : ∀ v, e ≠ const v)
    (hrun : ∀ v, e.evaluate true [] = .ok v ↔ ∃ l, lhs.evaluate true [] = .ok l ∧
      FitsI64 divisor ∧ FitsI64 (quotient l) ∧ quotient l = v) (htidy : lhs.Tidy) :
    (∃ v, foldConstant e = const v) ↔
      ∃ v, lhs = const v ∧ FitsI64 v ∧ FitsI64 divisor := by
  constructor
  · rintro ⟨v, hv⟩
    rcases stuck_or_value e with hstuck | ⟨w, hw⟩
    · rw [foldConstant_of_stuck hstuck] at hv
      exact absurd hv (hne v)
    · obtain ⟨l, hl, hd, -⟩ := (hrun w).mp hw
      obtain ⟨rfl, hlfits⟩ := htidy.eq_const hl
      exact ⟨l, rfl, hlfits, hd⟩
  · rintro ⟨v, rfl, hv, hd⟩
    have hconst : (const v).evaluate true [] = .ok v := i64_eq_ok.mpr ⟨fun _ => hv, rfl⟩
    exact ⟨quotient v,
      foldConstant_eq ((hrun _).mpr ⟨v, hconst, hd, hfits v hv hd, rfl⟩)⟩

theorem fitsI64_fdiv {v divisor : Int} (positive : 0 < divisor) (h : FitsI64 v) :
    FitsI64 (v.fdiv divisor) := by
  unfold FitsI64 at h ⊢
  rw [Int.fdiv_eq_ediv_of_nonneg v positive.le]
  constructor
  · rw [Int.le_ediv_iff_mul_le positive]
    omega
  · rw [Int.ediv_lt_iff_lt_mul positive]
    omega

theorem fitsI64_fmod {v divisor : Int} (positive : 0 < divisor) (hdivisor : FitsI64 divisor) :
    FitsI64 (v.fmod divisor) := by
  unfold FitsI64 at hdivisor ⊢
  have hlow := Int.fmod_nonneg_of_pos v positive
  have hhigh := Int.fmod_lt_of_pos v positive
  constructor
  · omega
  · omega

/-- The normal form is a constant exactly where nothing keeps the expression structural. -/
theorem normalizeExpr_eq_const {e : Expr} (h : e.Valid) :
    (∃ v, e.normalizeExpr = const v) ↔ ¬ e.Structural := by
  have hzero : ∀ side : Expr, side.Valid →
      ((∃ v, side.normalizeExpr = const v) ↔ ¬ side.Structural) →
      (side.normalizeExpr = const 0 ↔ ¬ side.Structural ∧ side.value [] = 0) := by
    intro side hside ih
    have hvalue := value_normalizeExpr hside []
    constructor
    · intro hconst
      rw [hconst] at hvalue
      exact ⟨ih.mp ⟨0, hconst⟩, hvalue.symm⟩
    · rintro ⟨hfolded, hside⟩
      obtain ⟨v, hv⟩ := ih.mpr hfolded
      rw [hv, hside] at hvalue
      exact hv.trans (congrArg const hvalue)
  -- the operand of a division, where it is a constant
  have hoperand : ∀ (side : Expr) (divisor : Int), side.Valid →
      ((∃ v, side.normalizeExpr = const v) ↔ ¬ side.Structural) →
      ((∃ v, side.normalizeExpr = const v ∧ FitsI64 v ∧ FitsI64 divisor) ↔
        ¬ side.Structural ∧ FitsI64 (side.value []) ∧ FitsI64 divisor) := by
    intro side divisor hside ih
    have hvalue := value_normalizeExpr hside []
    constructor
    · rintro ⟨v, hv, hfits, hd⟩
      rw [hv] at hvalue
      exact ⟨ih.mp ⟨v, hv⟩, hvalue ▸ hfits, hd⟩
    · rintro ⟨hfolded, hfits, hd⟩
      obtain ⟨v, hv⟩ := ih.mpr hfolded
      rw [hv] at hvalue
      exact ⟨v, hv, by rwa [← hvalue] at hfits, hd⟩
  induction e with
  | const v => simp [normalizeExpr, Structural]
  | symbol name => simp [normalizeExpr, Structural]
  | add lhs rhs ihl ihr =>
      have hl : (∃ v, lhs.normalizeExpr = const v) ↔ ¬ lhs.Structural := ihl h.1
      have hr : (∃ v, rhs.normalizeExpr = const v) ↔ ¬ rhs.Structural := ihr h.2
      have hnode : (add lhs rhs).normalizeExpr = _ :=
        normalizeExpr_node .add h.1 h.2
      rw [hnode, commutative_eq_const (normalizeExpr_valid_tidy h.1).2
        (normalizeExpr_valid_tidy h.2).2, hl, hr]
      simp [Structural]
  | mul lhs rhs ihl ihr =>
      have hl : (∃ v, lhs.normalizeExpr = const v) ↔ ¬ lhs.Structural := ihl h.1
      have hr : (∃ v, rhs.normalizeExpr = const v) ↔ ¬ rhs.Structural := ihr h.2
      have hnode : (mul lhs rhs).normalizeExpr = _ :=
        normalizeExpr_node .mul h.1 h.2
      rw [hnode, commutative_eq_const (normalizeExpr_valid_tidy h.1).2
        (normalizeExpr_valid_tidy h.2).2, hl, hr, hzero lhs h.1 hl, hzero rhs h.2 hr]
      simp only [Structural]
      tauto
  | floorDiv lhs divisor positive ih =>
      rw [normalizeExpr]
      split
      · rename_i hone
        have hl : (∃ v, lhs.normalizeExpr = const v) ↔ ¬ lhs.Structural := ih h
        rw [hl]
        simp [Structural, hone]
      · rename_i hone
        have hvalid : lhs.Valid := h
        have hrun : ∀ v, (floorDiv lhs.normalizeExpr divisor positive).evaluate true [] = .ok v ↔
            ∃ l, lhs.normalizeExpr.evaluate true [] = .ok l ∧ FitsI64 divisor ∧
              FitsI64 (l.fdiv divisor) ∧ l.fdiv divisor = v := by
          intro v
          simp [evaluate, bind_eq_ok, i64_eq_ok]
        have hfold := foldConstant_eq_const divisor (fun v => v.fdiv divisor)
          (fun v hv _ => fitsI64_fdiv positive hv) (fun v hv => by cases hv) hrun
          (normalizeExpr_valid_tidy hvalid).2
        rw [hfold, hoperand lhs divisor h (ih h)]
        simp only [Structural]
        tauto
  | mod lhs divisor positive ih =>
      rw [normalizeExpr]
      split
      · rename_i hone
        simp [Structural, hone]
      · rename_i hone
        have hvalid : lhs.Valid := h
        have hrun : ∀ v, (mod lhs.normalizeExpr divisor positive).evaluate true [] = .ok v ↔
            ∃ l, lhs.normalizeExpr.evaluate true [] = .ok l ∧ FitsI64 divisor ∧
              FitsI64 (l.fmod divisor) ∧ l.fmod divisor = v := by
          intro v
          simp [evaluate, bind_eq_ok, i64_eq_ok]
        have hfold := foldConstant_eq_const divisor (fun v => v.fmod divisor)
          (fun v _ hd => fitsI64_fmod positive hd) (fun v hv => by cases hv) hrun
          (normalizeExpr_valid_tidy hvalid).2
        rw [hfold, hoperand lhs divisor h (ih h)]
        simp only [Structural]
        tauto

/-! ### Admission -/

/-- Checked evaluation of a closed expression leaves the signed words. -/
def Overflows (e : Expr) : Prop := e.evaluate true [] = .error (.guard "integer_overflow")

instance (e : Expr) : Decidable e.Overflows :=
  inferInstanceAs (Decidable (e.evaluate true [] = .error (.guard "integer_overflow")))

/-- Equal normal forms have equal values, normal forms are their own, and order and grouping do
    not matter; overflowing arithmetic is kept from the constants exactly where a division or a
    modulo keeps it structural. -/
theorem normalizeExpr_admits_iff (e : Expr) (he : e.Valid) :
    (∀ other : Expr, other.Valid → e.normalizeExpr = other.normalizeExpr →
      ∀ bindings, e.Bound bindings → other.Bound bindings →
        ∃ v, e.evaluate false bindings = .ok v ∧ other.evaluate false bindings = .ok v) ∧
    e.normalizeExpr.normalizeExpr = e.normalizeExpr ∧
    (∀ other, Regrouped e other → e.normalizeExpr = other.normalizeExpr) ∧
    (e.symbols = [] →
      ((e.Overflows → ∀ v, e.normalizeExpr ≠ (const v).normalizeExpr) ↔
        ¬ e.Overflows ∨ e.Structural)) := by
  refine ⟨?_, ?_, fun other h => h.normalizeExpr_eq he, fun _ => ?_⟩
  · intro other hother hsame bindings hbound hotherBound
    refine ⟨e.value bindings, evaluate_unchecked hbound, ?_⟩
    rw [evaluate_unchecked hotherBound, ← value_normalizeExpr hother, ← hsame,
      value_normalizeExpr he]
  · obtain ⟨hvalid, htidy⟩ := normalizeExpr_valid_tidy he
    exact htidy.normalizeExpr_eq hvalid
  · have hconst : (∀ v, e.normalizeExpr ≠ (const v).normalizeExpr) ↔ e.Structural := by
      rw [← not_exists, ← not_not (a := e.Structural)]
      exact not_congr (normalizeExpr_eq_const he)
    rw [hconst]
    exact imp_iff_not_or

/-- `2^63 // 2` keeps its dividend structural. -/
theorem normalizeExpr_admits_division :
    (floorDiv (const (2 ^ 63)) 2 (by decide)).normalizeExpr ≠ (const (2 ^ 62)).normalizeExpr := by
  have hadmits := normalizeExpr_admits_iff (floorDiv (const (2 ^ 63)) 2 (by decide)) trivial
  refine (hadmits.2.2.2 rfl).mpr (.inr (.inr ⟨by decide, ?_⟩)) (by decide) _
  intro hfits
  exact absurd hfits.1 (by decide)

/-- `(2^63 - 1) + 1` has the normal form of `2^63`, and multiplied by zero that of zero. -/
theorem normalizeExpr_overflow :
    (add (const (2 ^ 63 - 1)) (const 1)).Overflows ∧
      (add (const (2 ^ 63 - 1)) (const 1)).normalizeExpr = (const (2 ^ 63)).normalizeExpr ∧
      (mul (add (const (2 ^ 63 - 1)) (const 1)) (const 0)).Overflows ∧
      (mul (add (const (2 ^ 63 - 1)) (const 1)) (const 0)).normalizeExpr =
        (const 0).normalizeExpr := by
  decide

end SymReloc.Frontend.Expr
