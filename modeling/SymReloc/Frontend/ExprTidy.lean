import SymReloc.Frontend.ExprNormal

/-!
# Normal forms are tidy

Checked evaluation of a tidy expression succeeds on constants only, so that the fold of a sum or
a product adds nothing to its assembly.
-/

namespace SymReloc.Frontend.Expr

/-! ### Evaluating -/

theorem bind_eq_ok {α β : Type} {run : Except Raised α} {next : α → Except Raised β}
    {result : β} :
    (run >>= next) = .ok result ↔ ∃ value, run = .ok value ∧ next value = .ok result := by
  cases run with
  | ok value => simp [bind, Except.bind]
  | error raised => simp [bind, Except.bind]

theorem i64_eq_ok {checked : Bool} {value result : Int} :
    i64 checked value = .ok result ↔ (checked = true → FitsI64 value) ∧ value = result := by
  unfold i64
  split
  · rename_i h
    simp [h.1, h.2]
  · rename_i h
    push Not at h
    simpa using fun _ => h

theorem evaluate_node_eq_ok (kind : Commutative) {checked : Bool} {bindings : Bindings}
    {lhs rhs : Expr} {result : Int} :
    (kind.node lhs rhs).evaluate checked bindings = .ok result ↔
      ∃ l r, lhs.evaluate checked bindings = .ok l ∧ rhs.evaluate checked bindings = .ok r ∧
        (checked = true → FitsI64 (kind.combine l r)) ∧ kind.combine l r = result := by
  cases kind <;>
    simp [Commutative.node, Commutative.combine, evaluate, bind_eq_ok, i64_eq_ok]

/-- Every operand of a reduced list is evaluated. -/
theorem evaluate_of_reduce {kind : Commutative} {checked : Bool} {bindings : Bindings}
    {list : List Expr} {result : Int}
    (h : (reduce kind list).evaluate checked bindings = .ok result) :
    ∀ e ∈ list, ∃ value, e.evaluate checked bindings = .ok value := by
  induction list using List.reverseRecOn generalizing result with
  | nil => nofun
  | append_singleton list last ih =>
      intro e he
      by_cases hnil : list = []
      · subst hnil
        rw [List.nil_append, List.mem_singleton] at he
        exact he ▸ ⟨result, h⟩
      · rw [reduce_concat kind hnil] at h
        obtain ⟨l, r, hl, hr, -⟩ := (evaluate_node_eq_ok kind).mp h
        rcases List.mem_append.mp he with hmem | hlast
        · exact ih hl e hmem
        · rw [List.mem_singleton] at hlast
          exact hlast ▸ ⟨r, hr⟩

/-! ### Tidy expressions -/

/-- Checked evaluation without bindings does not succeed. -/
def Stuck (e : Expr) : Prop := ∀ value, e.evaluate true [] ≠ .ok value

/-- The expression is assembled from its own terms. -/
def Assembled (kind : Commutative) (e : Expr) : Prop :=
  assemble kind (terms kind e) (coefficient kind e) = e

/-- Nothing but constants can be folded, and sums and products are assembled, at every level. -/
def Tidy : Expr → Prop
  | const _ => True
  | symbol _ => True
  | add lhs rhs => lhs.Tidy ∧ rhs.Tidy ∧ Assembled .add (add lhs rhs) ∧ Stuck (add lhs rhs)
  | mul lhs rhs => lhs.Tidy ∧ rhs.Tidy ∧ Assembled .mul (mul lhs rhs) ∧ Stuck (mul lhs rhs)
  | floorDiv lhs divisor positive =>
      lhs.Tidy ∧ divisor ≠ 1 ∧ Stuck (floorDiv lhs divisor positive)
  | mod lhs divisor positive => lhs.Tidy ∧ divisor ≠ 1 ∧ Stuck (mod lhs divisor positive)

theorem tidy_node {kind : Commutative} {lhs rhs : Expr} :
    (kind.node lhs rhs).Tidy ↔ lhs.Tidy ∧ rhs.Tidy ∧ Assembled kind (kind.node lhs rhs) ∧
      Stuck (kind.node lhs rhs) := by
  cases kind <;> rfl

theorem Tidy.const_or_stuck {e : Expr} (h : e.Tidy) : (∃ value, e = const value) ∨ Stuck e := by
  cases e with
  | const value => exact .inl ⟨value, rfl⟩
  | symbol name => exact .inr nofun
  | add lhs rhs => exact .inr h.2.2.2
  | mul lhs rhs => exact .inr h.2.2.2
  | floorDiv lhs divisor positive => exact .inr h.2.2
  | mod lhs divisor positive => exact .inr h.2.2

/-- Of tidy expressions only constants have a checked value. -/
theorem Tidy.eq_const {e : Expr} (h : e.Tidy) {value : Int}
    (heval : e.evaluate true [] = .ok value) : e = const value ∧ FitsI64 value := by
  rcases h.const_or_stuck with ⟨other, rfl⟩ | hstuck
  · obtain ⟨hfits, rfl⟩ := i64_eq_ok.mp heval
    exact ⟨rfl, hfits rfl⟩
  · exact absurd heval (hstuck value)

theorem Tidy.of_mem_terms {kind : Commutative} {e t : Expr} (h : e.Tidy)
    (hmem : t ∈ terms kind e) : t.Tidy := by
  induction e using node_induction kind with
  | hconst value => cases hmem
  | hwhole e hwhole =>
      rw [terms_of_whole hwhole, List.mem_singleton] at hmem
      exact hmem ▸ h
  | hnode lhs rhs ihl ihr =>
      obtain ⟨hl, hr, -⟩ := tidy_node.mp h
      rw [terms_node, List.mem_append] at hmem
      exact hmem.elim (ihl hl) (ihr hr)

/-! ### Assembled lists are tidy -/

/-- A list that `assemble` may have gathered. -/
def Gathered (kind : Commutative) (list : List Expr) : Prop :=
  ∃ ts constant, ¬ (kind = .mul ∧ constant = 0) ∧ (∀ t ∈ ts, Whole kind t) ∧
    list.Perm (gathered kind ts constant)

theorem gathered_identity {kind : Commutative} {ts : List Expr} (h : ts ≠ []) :
    gathered kind ts kind.identity = ts := by
  rw [gathered, if_neg]
  rintro (hne | hnil)
  · exact hne rfl
  · exact h hnil

theorem gathered_of_ne {kind : Commutative} {constant : Int} (h : constant ≠ kind.identity)
    (ts : List Expr) : gathered kind ts constant = ts ++ [const constant] := by
  rw [gathered, if_pos (.inl h)]

theorem identity_ne_zero {kind : Commutative} : ¬ (kind = .mul ∧ kind.identity = 0) := by
  rintro ⟨rfl, h⟩
  cases h

/-- The front of a gathered list is gathered. -/
theorem Gathered.init {kind : Commutative} {list : List Expr} {last : Expr} (hnil : list ≠ [])
    (h : Gathered kind (list ++ [last])) : Gathered kind list := by
  obtain ⟨ts, constant, hzero, hwhole, hperm⟩ := h
  have hcons : (last :: list).Perm (gathered kind ts constant) :=
    List.perm_append_comm.trans hperm
  have hlength := hcons.length_eq
  by_cases hid : constant = kind.identity
  · subst hid
    have hts : ts ≠ [] := by
      rintro rfl
      simp [gathered] at hlength
      exact hnil hlength
    rw [gathered_identity hts] at hcons
    have hmem : last ∈ ts := hcons.mem_iff.mp List.mem_cons_self
    obtain ⟨before, after, rfl⟩ := List.append_of_mem hmem
    have hrest : list.Perm (before ++ after) :=
      List.Perm.cons_inv (hcons.trans List.perm_middle)
    refine ⟨before ++ after, kind.identity, identity_ne_zero, ?_, ?_⟩
    · intro t ht
      refine hwhole t ?_
      rcases List.mem_append.mp ht with hb | ha
      · exact List.mem_append_left _ hb
      · exact List.mem_append_right _ (List.mem_cons_of_mem _ ha)
    · rwa [gathered_identity]
      rintro hempty
      rw [hempty, List.perm_nil] at hrest
      exact hnil hrest
  · rw [gathered_of_ne hid] at hcons
    rcases List.mem_append.mp (hcons.mem_iff.mp List.mem_cons_self) with hmem | hlast
    · obtain ⟨before, after, rfl⟩ := List.append_of_mem hmem
      refine ⟨before ++ after, constant, hzero, ?_, ?_⟩
      · intro t ht
        refine hwhole t ?_
        rcases List.mem_append.mp ht with hb | ha
        · exact List.mem_append_left _ hb
        · exact List.mem_append_right _ (List.mem_cons_of_mem _ ha)
      · rw [gathered_of_ne hid]
        refine List.Perm.cons_inv (hcons.trans ?_)
        rw [List.append_assoc, List.append_assoc]
        exact List.perm_middle
    · rw [List.mem_singleton] at hlast
      subst hlast
      have hrest : list.Perm ts := List.Perm.cons_inv (hcons.trans List.perm_append_comm)
      refine ⟨ts, kind.identity, identity_ne_zero, hwhole, ?_⟩
      rwa [gathered_identity]
      rintro rfl
      exact hnil (List.perm_nil.mp hrest)

/-- A gathered list of at least two has a term. -/
theorem Gathered.exists_whole {kind : Commutative} {list : List Expr} {last : Expr}
    (hnil : list ≠ []) (h : Gathered kind (list ++ [last])) :
    ∃ t ∈ list ++ [last], Whole kind t := by
  obtain ⟨ts, constant, -, hwhole, hperm⟩ := h
  cases ts with
  | nil =>
      have hlength := hperm.length_eq
      simp [gathered] at hlength
      exact absurd hlength hnil
  | cons t rest =>
      refine ⟨t, hperm.mem_iff.mpr ?_, hwhole t List.mem_cons_self⟩
      unfold gathered
      split
      · exact List.mem_append_left _ List.mem_cons_self
      · exact List.mem_cons_self

theorem Gathered.assembled {kind : Commutative} {list : List Expr} (h : Gathered kind list)
    (hvalid : ∀ e ∈ list, e.Valid) (hsorted : list.Pairwise fun a b => a.text ≤ b.text) :
    Assembled kind (reduce kind list) := by
  obtain ⟨ts, constant, hzero, hwhole, hperm⟩ := h
  have hterms := terms_reduce_perm hwhole hperm
  have hown : ∀ e ∈ terms kind (reduce kind list), e.Valid :=
    fun e he => valid_of_mem_terms (valid_reduce hvalid) he
  rw [Assembled, coefficient_reduce_perm hwhole hperm, assemble_perm hown hterms,
    assemble_of_ne hzero]
  congr 1
  exact sortTerms_eq_of_perm (fun e he => hvalid e (hperm.mem_iff.mpr he)) hperm.symm hsorted

/-- The reduction of a sorted gathered list of tidy expressions is tidy. -/
theorem Gathered.tidy {kind : Commutative} {list : List Expr} (h : Gathered kind list)
    (hvalid : ∀ e ∈ list, e.Valid) (htidy : ∀ e ∈ list, e.Tidy)
    (hsorted : list.Pairwise fun a b => a.text ≤ b.text) : (reduce kind list).Tidy := by
  induction list using List.reverseRecOn with
  | nil => trivial
  | append_singleton list last ih =>
      by_cases hnil : list = []
      · subst hnil
        exact htidy last (by simp)
      · have hfront : ∀ e ∈ list, e ∈ list ++ [last] :=
          fun e he => List.mem_append_left _ he
        have hinit := ih (h.init hnil) (fun e he => hvalid e (hfront e he))
          (fun e he => htidy e (hfront e he)) (List.pairwise_append.mp hsorted).1
        have hassembled := h.assembled hvalid hsorted
        obtain ⟨t, ht, hwhole⟩ := h.exists_whole hnil
        rw [reduce_concat kind hnil] at hassembled ⊢
        refine tidy_node.mpr ⟨hinit, htidy last (by simp), hassembled, ?_⟩
        intro value heval
        -- a term among the operands has no checked value
        rw [← reduce_concat kind hnil] at heval
        obtain ⟨own, hown⟩ := evaluate_of_reduce heval t ht
        obtain ⟨rfl, -⟩ := (htidy t ht).eq_const hown
        exact hwhole

theorem tidy_assemble {kind : Commutative} {ts : List Expr} (hwhole : ∀ t ∈ ts, Whole kind t)
    (hvalid : ∀ t ∈ ts, t.Valid) (htidy : ∀ t ∈ ts, t.Tidy) (constant : Int) :
    (assemble kind ts constant).Tidy := by
  by_cases hzero : kind = .mul ∧ constant = 0
  · obtain ⟨rfl, rfl⟩ := hzero
    rw [assemble_zero]
    trivial
  · rw [assemble_of_ne hzero]
    have hperm := sortTerms_perm (gathered kind ts constant)
    refine Gathered.tidy ⟨ts, constant, hzero, hwhole, hperm⟩ ?_ ?_ (pairwise_sortTerms _)
    · intro e he
      exact valid_gathered hvalid constant e (hperm.mem_iff.mp he)
    · intro e he
      have hmem := hperm.mem_iff.mp he
      unfold gathered at hmem
      split at hmem
      · rcases List.mem_append.mp hmem with hin | hconst
        · exact htidy e hin
        · rw [List.mem_singleton] at hconst
          exact hconst ▸ trivial
      · exact htidy e hmem

theorem tidy_commutative {kind : Commutative} {lhs rhs : Expr} (hl : lhs.Valid)
    (hr : rhs.Valid) (htl : lhs.Tidy) (htr : rhs.Tidy) : (commutative kind lhs rhs).Tidy := by
  rw [commutative_eq]
  refine tidy_assemble (whole_terms kind lhs rhs) (valid_terms hl hr) ?_ _
  intro t ht
  rcases List.mem_append.mp ht with hmem | hmem
  · exact htl.of_mem_terms hmem
  · exact htr.of_mem_terms hmem

/-! ### The normal form -/

theorem foldConstant_eq {e : Expr} {value : Int} (h : e.evaluate true [] = .ok value) :
    foldConstant e = const value := by
  rw [foldConstant, h]

theorem foldConstant_of_stuck {e : Expr} (h : Stuck e) : foldConstant e = e := by
  unfold foldConstant
  split
  · rename_i value heval
    exact absurd heval (h value)
  · rfl

theorem stuck_or_value (e : Expr) : Stuck e ∨ ∃ value, e.evaluate true [] = .ok value := by
  by_cases h : ∃ value, e.evaluate true [] = .ok value
  · exact .inr h
  · exact .inl fun value heval => h ⟨value, heval⟩

theorem commutative_const (kind : Commutative) (a b : Int) :
    commutative kind (const a) (const b) = const (kind.combine a b) := by
  rw [commutative_eq]
  simp only [terms_const, coefficient_const, List.append_nil]
  by_cases hzero : kind = .mul ∧ kind.combine a b = 0
  · obtain ⟨rfl, h⟩ := hzero
    rw [h, assemble_zero]
  · rw [assemble_of_ne hzero]
    simp [gathered, sortTerms, reduce]

/-- On tidy operands the fold agrees with the assembly. -/
theorem fold_eq_commutative (kind : Commutative) {lhs rhs : Expr} (hl : lhs.Tidy)
    (hr : rhs.Tidy) :
    (if (foldConstant (kind.node lhs rhs)).isConst then foldConstant (kind.node lhs rhs)
      else commutative kind lhs rhs) = commutative kind lhs rhs := by
  split
  · rename_i hconst
    rcases stuck_or_value (kind.node lhs rhs) with hstuck | ⟨value, heval⟩
    · rw [foldConstant_of_stuck hstuck] at hconst
      cases kind <;> cases hconst
    · obtain ⟨l, r, hleft, hright, -, rfl⟩ := (evaluate_node_eq_ok kind).mp heval
      rw [foldConstant_eq heval, (hl.eq_const hleft).1, (hr.eq_const hright).1,
        commutative_const]
  · rfl

theorem normalizeExpr_valid_tidy {e : Expr} (h : e.Valid) :
    e.normalizeExpr.Valid ∧ e.normalizeExpr.Tidy := by
  induction e with
  | const value => exact ⟨trivial, trivial⟩
  | symbol name => exact ⟨h, trivial⟩
  | add lhs rhs ihl ihr =>
      obtain ⟨hvl, htl⟩ := ihl h.1
      obtain ⟨hvr, htr⟩ := ihr h.2
      have hnormal : (add lhs rhs).normalizeExpr =
          commutative .add lhs.normalizeExpr rhs.normalizeExpr :=
        fold_eq_commutative .add htl htr
      rw [hnormal]
      exact ⟨valid_commutative hvl hvr, tidy_commutative hvl hvr htl htr⟩
  | mul lhs rhs ihl ihr =>
      obtain ⟨hvl, htl⟩ := ihl h.1
      obtain ⟨hvr, htr⟩ := ihr h.2
      have hnormal : (mul lhs rhs).normalizeExpr =
          commutative .mul lhs.normalizeExpr rhs.normalizeExpr :=
        fold_eq_commutative .mul htl htr
      rw [hnormal]
      exact ⟨valid_commutative hvl hvr, tidy_commutative hvl hvr htl htr⟩
  | floorDiv lhs divisor positive ih =>
      obtain ⟨hv, ht⟩ := ih h
      unfold normalizeExpr
      split
      · exact ⟨hv, ht⟩
      · rename_i hone
        rcases stuck_or_value (floorDiv lhs.normalizeExpr divisor positive) with
          hstuck | ⟨value, heval⟩
        · rw [foldConstant_of_stuck hstuck]
          exact ⟨hv, ht, hone, hstuck⟩
        · rw [foldConstant_eq heval]
          exact ⟨trivial, trivial⟩
  | mod lhs divisor positive ih =>
      obtain ⟨hv, ht⟩ := ih h
      unfold normalizeExpr
      split
      · exact ⟨trivial, trivial⟩
      · rename_i hone
        rcases stuck_or_value (mod lhs.normalizeExpr divisor positive) with
          hstuck | ⟨value, heval⟩
        · rw [foldConstant_of_stuck hstuck]
          exact ⟨hv, ht, hone, hstuck⟩
        · rw [foldConstant_eq heval]
          exact ⟨trivial, trivial⟩

theorem normalizeExpr_node (kind : Commutative) {lhs rhs : Expr} (hl : lhs.Valid)
    (hr : rhs.Valid) : (kind.node lhs rhs).normalizeExpr =
      commutative kind lhs.normalizeExpr rhs.normalizeExpr := by
  have hfold := fold_eq_commutative kind (normalizeExpr_valid_tidy hl).2
    (normalizeExpr_valid_tidy hr).2
  cases kind
  · exact hfold
  · exact hfold

/-- A tidy expression is its own normal form. -/
theorem Tidy.normalizeExpr_eq {e : Expr} (h : e.Tidy) (hvalid : e.Valid) :
    e.normalizeExpr = e := by
  induction e with
  | const value => rfl
  | symbol name => rfl
  | add lhs rhs ihl ihr =>
      have hnode := normalizeExpr_node .add hvalid.1 hvalid.2
      rw [ihl h.1 hvalid.1, ihr h.2.1 hvalid.2, commutative_eq, ← terms_node,
        ← coefficient_node] at hnode
      exact hnode.trans h.2.2.1
  | mul lhs rhs ihl ihr =>
      have hnode := normalizeExpr_node .mul hvalid.1 hvalid.2
      rw [ihl h.1 hvalid.1, ihr h.2.1 hvalid.2, commutative_eq, ← terms_node,
        ← coefficient_node] at hnode
      exact hnode.trans h.2.2.1
  | floorDiv lhs divisor positive ih =>
      rw [normalizeExpr, if_neg h.2.1, ih h.1 hvalid, foldConstant_of_stuck h.2.2]
  | mod lhs divisor positive ih =>
      rw [normalizeExpr, if_neg h.2.1, ih h.1 hvalid, foldConstant_of_stuck h.2.2]

end SymReloc.Frontend.Expr
