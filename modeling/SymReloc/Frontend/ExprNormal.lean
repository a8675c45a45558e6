import Mathlib.Data.List.Induction
import SymReloc.Frontend.ExprText

/-!
# The shape of a normal form

A normal form is tidy: every sum and every product of it is the assembly of its own terms, and
nothing but a constant of it can be folded.  Tidy expressions are their own normal forms, and the
sum and the product of tidy expressions do not depend on order and grouping.
-/

namespace SymReloc.Frontend.Expr

/-! ### Collecting -/

theorem Commutative.combine_comm (kind : Commutative) (a b : Int) :
    kind.combine a b = kind.combine b a := by
  cases kind
  · exact Int.add_comm a b
  · exact Int.mul_comm a b

theorem Commutative.combine_assoc (kind : Commutative) (a b c : Int) :
    kind.combine (kind.combine a b) c = kind.combine a (kind.combine b c) := by
  cases kind
  · exact Int.add_assoc a b c
  · exact Int.mul_assoc a b c

@[simp] theorem Commutative.combine_identity (kind : Commutative) (a : Int) :
    kind.combine a kind.identity = a := by
  cases kind
  · exact Int.add_zero a
  · exact Int.mul_one a

@[simp] theorem Commutative.identity_combine (kind : Commutative) (a : Int) :
    kind.combine kind.identity a = a := by
  rw [kind.combine_comm, kind.combine_identity]

/-- The terms of one operand. -/
def terms (kind : Commutative) (e : Expr) : List Expr := (collect kind ([], kind.identity) e).1

/-- The combined constants of one operand. -/
def coefficient (kind : Commutative) (e : Expr) : Int := (collect kind ([], kind.identity) e).2

/-- A term that is collected whole. -/
def Whole (kind : Commutative) : Expr → Prop
  | const _ => False
  | add _ _ => kind ≠ .add
  | mul _ _ => kind ≠ .mul
  | _ => True

theorem collect_of_whole {kind : Commutative} {e : Expr} (h : Whole kind e)
    (state : List Expr × Int) : collect kind state e = (state.1 ++ [e], state.2) := by
  cases e with
  | const value => exact h.elim
  | add lhs rhs => cases kind <;> first | rfl | exact absurd rfl h
  | mul lhs rhs => cases kind <;> first | rfl | exact absurd rfl h
  | _ => rfl

theorem collect_node (kind : Commutative) (lhs rhs : Expr) (state : List Expr × Int) :
    collect kind state (kind.node lhs rhs) = collect kind (collect kind state lhs) rhs := by
  cases kind <;> rfl

/-- An expression is a constant, a node of the operator or a whole term. -/
theorem whole_cases (kind : Commutative) (e : Expr) :
    (∃ value, e = const value) ∨ (∃ lhs rhs, e = kind.node lhs rhs) ∨ Whole kind e := by
  cases e with
  | const value => exact .inl ⟨value, rfl⟩
  | add lhs rhs =>
      cases kind with
      | add => exact .inr (.inl ⟨lhs, rhs, rfl⟩)
      | mul => exact .inr (.inr nofun)
  | mul lhs rhs =>
      cases kind with
      | add => exact .inr (.inr nofun)
      | mul => exact .inr (.inl ⟨lhs, rhs, rfl⟩)
  | _ => exact .inr (.inr trivial)

/-- Induction over the nodes of one operator. -/
theorem node_induction (kind : Commutative) {motive : Expr → Prop}
    (hconst : ∀ value, motive (const value)) (hwhole : ∀ e, Whole kind e → motive e)
    (hnode : ∀ lhs rhs, motive lhs → motive rhs → motive (kind.node lhs rhs)) (e : Expr) :
    motive e := by
  induction e with
  | const value => exact hconst value
  | add lhs rhs ihl ihr =>
      cases kind with
      | add => exact hnode lhs rhs ihl ihr
      | mul => exact hwhole _ nofun
  | mul lhs rhs ihl ihr =>
      cases kind with
      | add => exact hwhole _ nofun
      | mul => exact hnode lhs rhs ihl ihr
  | symbol name => exact hwhole _ trivial
  | floorDiv lhs divisor positive ih => exact hwhole _ trivial
  | mod lhs divisor positive ih => exact hwhole _ trivial

theorem collect_eq (kind : Commutative) (e : Expr) (state : List Expr × Int) :
    collect kind state e =
      (state.1 ++ terms kind e, kind.combine state.2 (coefficient kind e)) := by
  induction e using node_induction kind generalizing state with
  | hconst value => simp [terms, coefficient, collect]
  | hwhole e hwhole => simp [terms, coefficient, collect_of_whole hwhole]
  | hnode lhs rhs ihl ihr =>
      simp only [terms, coefficient, collect_node]
      rw [ihr, ihl, ihr (collect kind ([], kind.identity) lhs)]
      simp [terms, coefficient, kind.combine_assoc]

@[simp] theorem terms_const (kind : Commutative) (value : Int) :
    terms kind (const value) = [] := rfl

@[simp] theorem coefficient_const (kind : Commutative) (value : Int) :
    coefficient kind (const value) = value := by simp [coefficient, collect]

theorem terms_of_whole {kind : Commutative} {e : Expr} (h : Whole kind e) :
    terms kind e = [e] := by
  rw [terms, collect_of_whole h]
  rfl

theorem coefficient_of_whole {kind : Commutative} {e : Expr} (h : Whole kind e) :
    coefficient kind e = kind.identity := by
  rw [coefficient, collect_of_whole h]

@[simp] theorem terms_node (kind : Commutative) (lhs rhs : Expr) :
    terms kind (kind.node lhs rhs) = terms kind lhs ++ terms kind rhs := by
  rw [terms, collect_node, collect_eq]
  rfl

@[simp] theorem coefficient_node (kind : Commutative) (lhs rhs : Expr) :
    coefficient kind (kind.node lhs rhs) =
      kind.combine (coefficient kind lhs) (coefficient kind rhs) := by
  rw [coefficient, collect_node, collect_eq]
  rfl

theorem whole_of_mem_terms {kind : Commutative} {e t : Expr} (h : t ∈ terms kind e) :
    Whole kind t := by
  induction e using node_induction kind with
  | hconst value => cases h
  | hwhole e hwhole =>
      rw [terms_of_whole hwhole, List.mem_singleton] at h
      exact h ▸ hwhole
  | hnode lhs rhs ihl ihr =>
      rw [terms_node, List.mem_append] at h
      exact h.elim ihl ihr

theorem valid_of_mem_terms {kind : Commutative} {e t : Expr} (hvalid : e.Valid)
    (h : t ∈ terms kind e) : t.Valid := by
  induction e using node_induction kind with
  | hconst value => cases h
  | hwhole e hwhole =>
      rw [terms_of_whole hwhole, List.mem_singleton] at h
      exact h ▸ hvalid
  | hnode lhs rhs ihl ihr =>
      have hsides : lhs.Valid ∧ rhs.Valid := by cases kind <;> exact hvalid
      rw [terms_node, List.mem_append] at h
      exact h.elim (ihl hsides.1) (ihr hsides.2)

theorem commutative_eq (kind : Commutative) (lhs rhs : Expr) :
    commutative kind lhs rhs = assemble kind (terms kind lhs ++ terms kind rhs)
      (kind.combine (coefficient kind lhs) (coefficient kind rhs)) := by
  rw [commutative, collect_eq, collect_eq]
  simp

/-! ### Reducing a list -/

/-- The constants of several operands, combined. -/
def total (kind : Commutative) (values : List Int) : Int :=
  values.foldr kind.combine kind.identity

theorem total_perm (kind : Commutative) {left right : List Int} (h : left.Perm right) :
    total kind left = total kind right := by
  induction h with
  | nil => rfl
  | cons a _ ih => exact congrArg (kind.combine a) ih
  | swap a b rest =>
      simp only [total, List.foldr_cons]
      rw [← kind.combine_assoc, kind.combine_comm b a, kind.combine_assoc]
  | trans _ _ ihl ihr => exact ihl.trans ihr

theorem total_append (kind : Commutative) (left right : List Int) :
    total kind (left ++ right) = kind.combine (total kind left) (total kind right) := by
  induction left with
  | nil => exact (kind.identity_combine _).symm
  | cons a rest ih =>
      have hrest : total kind (a :: rest ++ right) =
          kind.combine a (total kind (rest ++ right)) := rfl
      rw [hrest, ih, ← kind.combine_assoc]
      rfl

theorem reduce_concat (kind : Commutative) {list : List Expr} (h : list ≠ []) (last : Expr) :
    reduce kind (list ++ [last]) = kind.node (reduce kind list) last := by
  cases list with
  | nil => exact absurd rfl h
  | cons first rest => simp [reduce]

theorem terms_reduce (kind : Commutative) (list : List Expr) :
    terms kind (reduce kind list) = list.flatMap (terms kind) := by
  induction list using List.reverseRecOn with
  | nil => rfl
  | append_singleton list last ih =>
      by_cases hnil : list = []
      · subst hnil
        simp [reduce]
      · rw [reduce_concat kind hnil, terms_node, ih]
        simp

theorem coefficient_reduce (kind : Commutative) (list : List Expr) :
    coefficient kind (reduce kind list) = total kind (list.map (coefficient kind)) := by
  induction list using List.reverseRecOn with
  | nil => exact coefficient_const kind _
  | append_singleton list last ih =>
      by_cases hnil : list = []
      · subst hnil
        exact (kind.combine_identity _).symm
      · rw [reduce_concat kind hnil, coefficient_node, ih, List.map_append, total_append]
        simp [total]

theorem flatMap_terms_of_whole {kind : Commutative} {list : List Expr}
    (h : ∀ t ∈ list, Whole kind t) : list.flatMap (terms kind) = list := by
  induction list with
  | nil => rfl
  | cons t rest ih =>
      rw [List.flatMap_cons, terms_of_whole (h t List.mem_cons_self),
        ih fun u hu => h u (List.mem_cons_of_mem _ hu)]
      rfl

theorem total_of_whole {kind : Commutative} {list : List Expr}
    (h : ∀ t ∈ list, Whole kind t) :
    total kind (list.map (coefficient kind)) = kind.identity := by
  induction list with
  | nil => rfl
  | cons t rest ih =>
      have hrest := ih fun u hu => h u (List.mem_cons_of_mem _ hu)
      have hcons : total kind ((t :: rest).map (coefficient kind)) =
          kind.combine (coefficient kind t) (total kind (rest.map (coefficient kind))) := rfl
      rw [hcons, hrest, coefficient_of_whole (h t List.mem_cons_self), kind.combine_identity]

/-! ### Assembling -/

/-- The list that `assemble` sorts. -/
def gathered (kind : Commutative) (terms : List Expr) (constant : Int) : List Expr :=
  if constant ≠ kind.identity ∨ terms = [] then terms ++ [const constant] else terms

theorem assemble_zero (terms : List Expr) : assemble .mul terms 0 = const 0 := by
  simp [assemble]

theorem assemble_of_ne {kind : Commutative} {constant : Int}
    (h : ¬ (kind = .mul ∧ constant = 0)) (terms : List Expr) :
    assemble kind terms constant = reduce kind (sortTerms (gathered kind terms constant)) := by
  rw [assemble, if_neg h, gathered]

theorem flatMap_terms_gathered {kind : Commutative} {list : List Expr}
    (h : ∀ t ∈ list, Whole kind t) (constant : Int) :
    (gathered kind list constant).flatMap (terms kind) = list := by
  unfold gathered
  split
  · rw [List.flatMap_append, flatMap_terms_of_whole h]
    simp
  · exact flatMap_terms_of_whole h

theorem total_gathered {kind : Commutative} {list : List Expr}
    (h : ∀ t ∈ list, Whole kind t) (constant : Int) :
    total kind ((gathered kind list constant).map (coefficient kind)) = constant := by
  unfold gathered
  split
  · rw [List.map_append, total_append, total_of_whole h, kind.identity_combine]
    simp [total]
  · rename_i hconstant
    rw [total_of_whole h]
    push Not at hconstant
    exact hconstant.1.symm

/-- The terms and the constant of a reduced list that gathers them. -/
theorem terms_reduce_perm {kind : Commutative} {ts list : List Expr} {constant : Int}
    (h : ∀ t ∈ ts, Whole kind t) (hperm : list.Perm (gathered kind ts constant)) :
    (terms kind (reduce kind list)).Perm ts := by
  rw [terms_reduce]
  have hflat := hperm.flatMap_right (terms kind)
  rwa [flatMap_terms_gathered h] at hflat

theorem coefficient_reduce_perm {kind : Commutative} {ts list : List Expr} {constant : Int}
    (h : ∀ t ∈ ts, Whole kind t) (hperm : list.Perm (gathered kind ts constant)) :
    coefficient kind (reduce kind list) = constant := by
  rw [coefficient_reduce, total_perm kind (hperm.map _), total_gathered h]

theorem gathered_perm {kind : Commutative} {left right : List Expr} (h : left.Perm right)
    (constant : Int) : (gathered kind left constant).Perm (gathered kind right constant) := by
  unfold gathered
  have hnil : left = [] ↔ right = [] := by
    constructor
    · rintro rfl
      exact List.nil_perm.mp h
    · rintro rfl
      exact List.perm_nil.mp h
  simp only [hnil]
  split
  · exact h.append_right _
  · exact h

theorem valid_gathered {kind : Commutative} {list : List Expr} (h : ∀ e ∈ list, e.Valid)
    (constant : Int) : ∀ e ∈ gathered kind list constant, e.Valid := by
  intro e he
  unfold gathered at he
  split at he
  · rcases List.mem_append.mp he with hmem | hconst
    · exact h e hmem
    · rw [List.mem_singleton] at hconst
      exact hconst ▸ trivial
  · exact h e he

/-- The order of the terms does not matter. -/
theorem assemble_perm {kind : Commutative} {left right : List Expr}
    (hvalid : ∀ e ∈ left, e.Valid) (hperm : left.Perm right) (constant : Int) :
    assemble kind left constant = assemble kind right constant := by
  by_cases hzero : kind = .mul ∧ constant = 0
  · obtain ⟨rfl, rfl⟩ := hzero
    rw [assemble_zero, assemble_zero]
  · rw [assemble_of_ne hzero, assemble_of_ne hzero,
      sortTerms_perm_eq (valid_gathered hvalid constant) (gathered_perm hperm constant)]

/-- What is assembled already contributes its own terms. -/
theorem assemble_absorb {kind : Commutative} {ts us : List Expr}
    (hts : ∀ t ∈ ts, Whole kind t ∧ t.Valid) (hus : ∀ t ∈ us, t.Valid) (c d : Int) :
    assemble kind (terms kind (assemble kind ts c) ++ us)
        (kind.combine (coefficient kind (assemble kind ts c)) d) =
      assemble kind (ts ++ us) (kind.combine c d) := by
  by_cases hzero : kind = .mul ∧ c = 0
  · obtain ⟨rfl, rfl⟩ := hzero
    have hproduct : Commutative.mul.combine 0 d = 0 := Int.zero_mul d
    rw [assemble_zero, coefficient_const, hproduct, assemble_zero, assemble_zero]
  · have hwhole : ∀ t ∈ ts, Whole kind t := fun t ht => (hts t ht).1
    rw [assemble_of_ne hzero, coefficient_reduce_perm hwhole (sortTerms_perm _)]
    have hperm := terms_reduce_perm hwhole (sortTerms_perm (gathered kind ts c))
    refine assemble_perm ?_ (hperm.append_right us) _
    intro e he
    rcases List.mem_append.mp he with hmem | hmem
    · exact (hts e (hperm.mem_iff.mp hmem)).2
    · exact hus e hmem

/-! ### Order and grouping -/

theorem valid_terms {kind : Commutative} {lhs rhs : Expr} (hl : lhs.Valid) (hr : rhs.Valid) :
    ∀ e ∈ terms kind lhs ++ terms kind rhs, e.Valid := by
  intro e he
  rcases List.mem_append.mp he with hmem | hmem
  · exact valid_of_mem_terms hl hmem
  · exact valid_of_mem_terms hr hmem

theorem whole_terms (kind : Commutative) (lhs rhs : Expr) :
    ∀ e ∈ terms kind lhs ++ terms kind rhs, Whole kind e := by
  intro e he
  rcases List.mem_append.mp he with hmem | hmem
  · exact whole_of_mem_terms hmem
  · exact whole_of_mem_terms hmem

theorem commutative_comm (kind : Commutative) {lhs rhs : Expr} (hl : lhs.Valid)
    (hr : rhs.Valid) : commutative kind lhs rhs = commutative kind rhs lhs := by
  rw [commutative_eq, commutative_eq, kind.combine_comm]
  exact assemble_perm (valid_terms hl hr) List.perm_append_comm _

theorem commutative_commutative (kind : Commutative) {a b c : Expr} (ha : a.Valid)
    (hb : b.Valid) (hc : c.Valid) :
    commutative kind (commutative kind a b) c =
      assemble kind (terms kind a ++ terms kind b ++ terms kind c)
        (kind.combine (kind.combine (coefficient kind a) (coefficient kind b))
          (coefficient kind c)) := by
  rw [commutative_eq kind _ c, commutative_eq kind a b]
  exact assemble_absorb
    (fun t ht => ⟨whole_terms kind a b t ht, valid_terms ha hb t ht⟩)
    (fun t ht => valid_of_mem_terms hc ht) _ _

theorem valid_node {kind : Commutative} {lhs rhs : Expr} :
    (kind.node lhs rhs).Valid ↔ lhs.Valid ∧ rhs.Valid := by
  cases kind <;> rfl

theorem valid_reduce {kind : Commutative} {list : List Expr} (h : ∀ e ∈ list, e.Valid) :
    (reduce kind list).Valid := by
  induction list using List.reverseRecOn with
  | nil => trivial
  | append_singleton list last ih =>
      by_cases hnil : list = []
      · subst hnil
        exact h last (by simp)
      · rw [reduce_concat kind hnil, valid_node]
        exact ⟨ih fun e he => h e (List.mem_append_left _ he), h last (by simp)⟩

theorem valid_assemble {kind : Commutative} {list : List Expr} (h : ∀ e ∈ list, e.Valid)
    (constant : Int) : (assemble kind list constant).Valid := by
  by_cases hzero : kind = .mul ∧ constant = 0
  · obtain ⟨rfl, rfl⟩ := hzero
    rw [assemble_zero]
    trivial
  · rw [assemble_of_ne hzero]
    exact valid_reduce fun e he =>
      valid_gathered h constant e ((sortTerms_perm _).mem_iff.mp he)

theorem valid_commutative {kind : Commutative} {lhs rhs : Expr} (hl : lhs.Valid)
    (hr : rhs.Valid) : (commutative kind lhs rhs).Valid := by
  rw [commutative_eq]
  exact valid_assemble (valid_terms hl hr) _

theorem commutative_assoc (kind : Commutative) {a b c : Expr} (ha : a.Valid) (hb : b.Valid)
    (hc : c.Valid) : commutative kind (commutative kind a b) c =
      commutative kind a (commutative kind b c) := by
  rw [commutative_comm kind ha (valid_commutative hb hc),
    commutative_commutative kind ha hb hc, commutative_commutative kind hb hc ha,
    kind.combine_comm (kind.combine (coefficient kind b) _), ← kind.combine_assoc]
  refine assemble_perm ?_ ?_ _
  · intro e he
    rcases List.mem_append.mp he with hmem | hmem
    · exact valid_terms ha hb e hmem
    · exact valid_of_mem_terms hc hmem
  · rw [List.append_assoc]
    exact List.perm_append_comm

end SymReloc.Frontend.Expr
