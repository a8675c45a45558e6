import SymReloc.Reloc.FoldPass

/-!
# What the fold pass has done so far

Between two chains, the module is the one that the pass began with, less the chains that
are folded, with a plan operation in place of each that takes over the uses of its tail.
The members of a folded chain have no users outside of it, so the other chains are still
what they were.
-/

namespace SymReloc.Fold

open WalkBack

variable {A B P : Type}

/-! ### Modules -/

/-- What the IR guarantees: operands are defined, chain operations have one result and as
    many operands as they should, and no value depends on itself. -/
structure Body.WellFormed (body : Body A) : Prop where
  nodup : (body.ops.map Operation.address).Nodup
  address_lt : ∀ op ∈ body.ops, op.address < body.next
  defined : ∀ op ∈ body.ops, ∀ p i, .result p i ∈ op.operands →
    ∃ d ∈ body.ops, d.address = p ∧ (d.foldable = true → i = 0)
  arity : ∀ op ∈ body.ops, op.foldable = true →
    op.operands.length = if op.kind = .indexSelect then 2 else 1
  acyclic : ∃ rank : Nat → Nat, ∀ op ∈ body.ops, ∀ p i, .result p i ∈ op.operands →
    rank p < rank op.address

theorem Operation.usesOp_iff {op : Operation A} {p : Nat} :
    op.usesOp p = true ↔ ∃ i, .result p i ∈ op.operands := by
  simp only [usesOp, List.any_eq_true, decide_eq_true_eq]
  constructor
  · rintro ⟨v, hv, hdef⟩
    cases v with
    | argument n => cases hdef
    | result q i =>
        cases hdef
        exact ⟨i, hv⟩
  · rintro ⟨i, hv⟩
    exact ⟨_, hv, rfl⟩

namespace Body

variable {body : Body A} {op : Operation A} {p q : Nat}

theorem eq_of_address (hnodup : (body.ops.map Operation.address).Nodup) {d : Operation A}
    (hop : op ∈ body.ops) (hd : d ∈ body.ops) (heq : op.address = d.address) : op = d :=
  List.inj_on_of_nodup_map hnodup hop hd heq

theorem mem_of_find (h : body.find p = some op) : op ∈ body.ops ∧ op.address = p := by
  unfold find at h
  exact ⟨List.mem_of_find?_eq_some h, by simpa using List.find?_some h⟩

theorem find_eq (hnodup : (body.ops.map Operation.address).Nodup) (hop : op ∈ body.ops)
    (haddress : op.address = p) : body.find p = some op := by
  cases hfind : body.find p with
  | none =>
      unfold find at hfind
      exact absurd haddress (by simpa using List.find?_eq_none.1 hfind op hop)
  | some d =>
      obtain ⟨hd, hdaddress⟩ := mem_of_find hfind
      rw [eq_of_address hnodup hop hd (haddress.trans hdaddress.symm)]

theorem foldable_iff (hnodup : (body.ops.map Operation.address).Nodup) :
    body.foldable p = true ↔ ∃ op ∈ body.ops, op.address = p ∧ op.foldable = true := by
  unfold foldable
  constructor
  · intro h
    cases hfind : body.find p with
    | none => simp [hfind] at h
    | some op =>
        obtain ⟨hmem, haddress⟩ := mem_of_find hfind
        exact ⟨op, hmem, haddress, by simpa [hfind] using h⟩
  · rintro ⟨op, hmem, haddress, hop⟩
    simp [find_eq hnodup hmem haddress, hop]

theorem rootDef_eq (hnodup : (body.ops.map Operation.address).Nodup) (hop : op ∈ body.ops)
    (haddress : op.address = p) :
    body.rootDef p = op.operands.head?.bind Value.getDefiningOp := by
  rw [rootDef, find_eq hnodup hop haddress]
  rfl

theorem source_eq_some (h : body.source p = some q) :
    ∃ op ∈ body.ops, op.address = p ∧ (∃ i, op.operands.head? = some (.result q i)) ∧
      body.foldable q = true := by
  rw [source, Option.filter_eq_some_iff] at h
  obtain ⟨hroot, hfoldable⟩ := h
  rw [rootDef, Option.bind_eq_some_iff] at hroot
  obtain ⟨op, hfind, hroot⟩ := hroot
  obtain ⟨hmem, haddress⟩ := mem_of_find hfind
  rw [Option.bind_eq_some_iff] at hroot
  obtain ⟨v, hv, hdef⟩ := hroot
  cases v with
  | argument n => cases hdef
  | result r i =>
      cases hdef
      exact ⟨op, hmem, haddress, ⟨i, hv⟩, hfoldable⟩

theorem source_of_head (hnodup : (body.ops.map Operation.address).Nodup) (hop : op ∈ body.ops)
    {i : Nat} (hhead : op.operands.head? = some (.result q i)) (hq : body.foldable q = true) :
    body.source op.address = some q := by
  rw [source, rootDef_eq hnodup hop rfl, hhead]
  exact Option.filter_eq_some_iff.2 ⟨rfl, hq⟩

namespace WellFormed

variable (hwf : body.WellFormed)
include hwf

theorem index_zero (hop : op ∈ body.ops) {i : Nat} (hv : .result p i ∈ op.operands)
    (hp : body.foldable p = true) : i = 0 := by
  obtain ⟨d, hd, haddress, hzero⟩ := hwf.defined op hop p i hv
  obtain ⟨d', hd', haddress', hfoldable⟩ := (foldable_iff hwf.nodup).1 hp
  cases eq_of_address hwf.nodup hd hd' (haddress.trans haddress'.symm)
  exact hzero hfoldable

theorem descends : ∃ rank : Nat → Nat, Descends body.source rank ∧
    ∀ op ∈ body.ops, ∀ p, op.usesOp p = true → rank p < rank op.address := by
  obtain ⟨rank, hrank⟩ := hwf.acyclic
  refine ⟨rank, fun p q h => ?_, fun op hop p huses => ?_⟩
  · obtain ⟨op, hop, rfl, ⟨i, hhead⟩, -⟩ := source_eq_some h
    exact hrank op hop q i (List.mem_of_head? hhead)
  · obtain ⟨i, hv⟩ := Operation.usesOp_iff.1 huses
    exact hrank op hop p i hv

theorem mem_tails : p ∈ body.tails ↔ ∃ op ∈ body.ops, op.address = p ∧ op.foldable = true ∧
    ∀ user ∈ body.ops, user.usesOp p = true → user.foldable = false := by
  simp only [tails, List.mem_map, List.mem_filter, Bool.and_eq_true, Bool.not_eq_true',
    List.any_eq_false, getUsers, decide_eq_true_eq, Bool.not_eq_true]
  constructor
  · rintro ⟨op, ⟨hop, hfoldable, husers⟩, rfl⟩
    refine ⟨op, hop, rfl, hfoldable, fun user huser huses => ?_⟩
    obtain ⟨i, hv⟩ := Operation.usesOp_iff.1 huses
    have hzero := hwf.index_zero huser hv ((foldable_iff hwf.nodup).2 ⟨op, hop, rfl, hfoldable⟩)
    subst hzero
    exact husers user ⟨huser, hv⟩
  · rintro ⟨op, hop, rfl, hfoldable, husers⟩
    refine ⟨op, ⟨hop, hfoldable, fun user huser => ?_⟩, rfl⟩
    exact husers user huser.1 (Operation.usesOp_iff.2 ⟨0, huser.2⟩)

theorem tail_foldable (hp : p ∈ body.tails) : body.foldable p = true := by
  obtain ⟨op, hop, rfl, hfoldable, -⟩ := hwf.mem_tails.1 hp
  exact (foldable_iff hwf.nodup).2 ⟨op, hop, rfl, hfoldable⟩

/-- The chain operations do not use a tail. -/
theorem not_uses_tail (hp : p ∈ body.tails) (hop : op ∈ body.ops) (hfoldable : op.foldable = true) :
    op.usesOp p = false := by
  obtain ⟨-, -, -, -, husers⟩ := hwf.mem_tails.1 hp
  by_contra huses
  simp [husers op hop (by simpa using huses)] at hfoldable

theorem chain_foldable {l : List Nat} (hp : p ∈ body.tails) (h : Collects body.source p l) :
    ∀ m ∈ l, body.foldable m = true :=
  h.forall_mem (hwf.tail_foldable hp) fun _ _ _ hsource =>
    (Option.filter_eq_some_iff.1 hsource).2

/-- A member that is not the tail is the first operand of another member. -/
theorem successor {l : List Nat} (hp : p ∈ body.tails) (h : Collects body.source p l)
    {m : Nat} (hm : m ∈ l) (hne : m ≠ p) :
    ∃ op ∈ body.ops, op.address ∈ l ∧ op.foldable = true ∧ .result m 0 ∈ op.operands := by
  obtain ⟨before, s, after, rfl, hs⟩ := h.split hm hne
  obtain ⟨op, hop, rfl, ⟨i, hhead⟩, hfoldable⟩ := source_eq_some hs
  have hmem : op.address ∈ before ++ op.address :: m :: after := by simp
  have hv := List.mem_of_head? hhead
  have hzero := hwf.index_zero hop hv hfoldable
  obtain ⟨d, hd, haddress, hd'⟩ := (foldable_iff hwf.nodup).1 (hwf.chain_foldable hp h _ hmem)
  cases eq_of_address hwf.nodup hd hop haddress
  exact ⟨op, hop, hmem, hd', hzero ▸ hv⟩

theorem not_mem_tails {l : List Nat} (hp : p ∈ body.tails) (h : Collects body.source p l)
    {m : Nat} (hm : m ∈ l) (hne : m ≠ p) : m ∉ body.tails := by
  intro htail
  obtain ⟨op, hop, -, hfoldable, hv⟩ := hwf.successor hp h hm hne
  have hnot := hwf.not_uses_tail htail hop hfoldable
  simp [Operation.usesOp_iff.2 ⟨0, hv⟩] at hnot

/-- Chains to different tails have no member in common, where those of the one have no users
    outside of it. -/
theorem disjoint {t t' : Nat} {l l' : List Nat} (ht : t ∈ body.tails) (ht' : t' ∈ body.tails)
    (h : Collects body.source t l) (h' : Collects body.source t' l')
    (halone : ∀ p ∈ l, p ≠ t → ∀ op ∈ body.ops, op.usesOp p = true → op.address ∈ l)
    {m : Nat} (hm : m ∈ l) (hm' : m ∈ l') : t = t' := by
  have hlast : ∀ {q l''}, Collects body.source q l'' → body.foldable q = true →
      m ∈ l'' → q ∈ l := by
    intro q l'' hq
    induction hq with
    | root =>
        intro _ hmem
        exact List.mem_singleton.1 hmem ▸ hm
    | @step q r l'' hsome _ ih =>
        intro hqfoldable hmem
        rcases List.mem_cons.1 hmem with rfl | hmem
        · exact hm
        obtain ⟨op, hop, haddress, ⟨i, hhead⟩, hr⟩ := source_eq_some hsome
        have huses : op.usesOp r = true := Operation.usesOp_iff.2 ⟨i, List.mem_of_head? hhead⟩
        have hne : r ≠ t := by
          rintro rfl
          obtain ⟨d, hd, hdaddress, hfoldable⟩ := (foldable_iff hwf.nodup).1 hqfoldable
          cases eq_of_address hwf.nodup hd hop (hdaddress.trans haddress.symm)
          simp [hwf.not_uses_tail ht hd hfoldable] at huses
        exact haddress ▸ halone r (ih hr hmem) hne op hop huses
  by_contra hne
  exact hwf.not_mem_tails ht h (hlast h' (hwf.tail_foldable ht') hm') (Ne.symm hne) ht'

end WellFormed

end Body

/-! ### Renaming -/

/-- The uses of a folded tail are uses of its plan operation. -/
def rename (plan : Nat → Option Nat) : Value → Value
  | .result p i =>
      match plan p with
      | some n => .result n i
      | none => .result p i
  | v => v

theorem rename_result {plan : Nat → Option Nat} {p i : Nat} (h : plan p = none) :
    rename plan (.result p i) = .result p i := by
  simp [rename, h]

theorem map_rename_eq {plan : Nat → Option Nat} {operands : List Value}
    (h : ∀ p i, .result p i ∈ operands → plan p = none) :
    operands.map (rename plan) = operands := by
  rw [List.map_congr_left (g := id), List.map_id]
  intro v hv
  cases v with
  | argument n => rfl
  | result p i => exact rename_result (h p i hv)

/-- The operation is the one that it was, but for marks and renamed operands. -/
structure Kept (plan : Nat → Option Nat) (op₀ op : Operation A) : Prop where
  address : op.address = op₀.address
  kind : op.kind = op₀.kind
  payload : op.payload = op₀.payload
  operands : op.operands = op₀.operands.map (rename plan)

/-- The operation was in a chain that is folded. -/
def Gone (before : Body A) (plan : Nat → Option Nat) (p : Nat) : Prop :=
  ∃ t n l, plan t = some n ∧ Collects before.source t l ∧ p ∈ l

/-- A chain that stays: marked, with a reason if an operation of it is typed. -/
def Typed (before : Body A) (l : List Nat) : Prop :=
  ∃ op ∈ before.ops, op.address ∈ l ∧ isTypedValueTransformOp op.kind = true

structure Progress (before : Body A) (done : List Nat) (plan : Nat → Option Nat)
    (body : Body A) : Prop where
  nodup : (body.ops.map Operation.address).Nodup
  address_lt : ∀ op ∈ body.ops, op.address < body.next
  next_le : before.next ≤ body.next
  done_tails : ∀ t ∈ done, t ∈ before.tails
  planned : ∀ t n, plan t = some n → t ∈ done ∧ before.next ≤ n ∧ n < body.next
  alone : ∀ t n l, plan t = some n → Collects before.source t l → ∀ p ∈ l, p ≠ t →
    ∀ op ∈ before.ops, op.usesOp p = true → op.address ∈ l
  single : ∀ t n l, plan t = some n → Collects before.source t l →
    ∀ op ∈ before.ops, op.address ∈ l → before.source op.address ≠ none →
      op.operands.length = 1
  plans : ∀ t n l, plan t = some n → Collects before.source t l →
    ∃ op ∈ body.ops, op.address = n ∧ isPlanResultOp op.kind = true ∧
      ∃ root ∈ before.ops, root.address ∈ l ∧ before.source root.address = none ∧
        op.operands = root.operands
  kept : ∀ op₀ ∈ before.ops, ¬ Gone before plan op₀.address → ∃ op ∈ body.ops, Kept plan op₀ op
  gone : ∀ op ∈ body.ops, ¬ Gone before plan op.address
  origin : ∀ op ∈ body.ops, (∃ op₀ ∈ before.ops, op₀.address = op.address) ∨
    (before.next ≤ op.address ∧ isPlanResultOp op.kind = true ∧
      ∃ t, plan t = some op.address)
  marks : ∀ op₀ ∈ before.ops, ∀ op ∈ body.ops, op.address = op₀.address →
    (op.fallback = true ↔ op₀.fallback = true ∨
      ∃ t ∈ done, plan t = none ∧ ∃ l, Collects before.source t l ∧ op.address ∈ l)
  reasons : ∀ t ∈ done, plan t = none → ∀ l, Collects before.source t l → Typed before l →
    ∀ op ∈ body.ops, op.address ∈ l → op.fallbackReason.isSome = true

theorem foldable_not_plan {op : Operation A} (h : isPlanResultOp op.kind = true) :
    op.foldable = false := by
  unfold Operation.foldable
  cases hkind : op.kind <;> simp_all [isPlanResultOp, isFoldableChainOp, isTypedValueTransformOp]

theorem Progress.start {before : Body A} (hwf : before.WellFormed) :
    Progress before [] (fun _ => none) before where
  nodup := hwf.nodup
  address_lt := hwf.address_lt
  next_le := Nat.le_refl _
  done_tails := by simp
  planned := by simp
  alone := by simp
  single := by simp
  plans := by simp
  kept := by
    intro op₀ hop _
    exact ⟨op₀, hop, rfl, rfl, rfl, (map_rename_eq fun _ _ _ => rfl).symm⟩
  gone := by simp [Gone]
  origin := fun op hop => .inl ⟨op, hop, rfl⟩
  marks := by
    intro op₀ hop₀ op hop haddress
    rw [Body.eq_of_address hwf.nodup hop hop₀ haddress]
    simp
  reasons := by simp

namespace Progress

variable {before body : Body A} {done : List Nat} {plan : Nat → Option Nat}
  (hwf : before.WellFormed) (hprogress : Progress before done plan body)
include hprogress

/-- An operation that was there and is still there. -/
theorem kept_of_mem {op op₀ : Operation A} (hop : op ∈ body.ops) (hop₀ : op₀ ∈ before.ops)
    (haddress : op.address = op₀.address) : Kept plan op₀ op := by
  have hstays : ¬ Gone before plan op₀.address := haddress ▸ hprogress.gone op hop
  obtain ⟨op', hop', hkept⟩ := hprogress.kept op₀ hop₀ hstays
  cases Body.eq_of_address hprogress.nodup hop hop' (haddress.trans hkept.address.symm)
  exact hkept

theorem plan_tail {t n : Nat} (h : plan t = some n) : t ∈ before.tails :=
  hprogress.done_tails t (hprogress.planned t n h).1

include hwf

theorem foldable_iff {p : Nat} :
    body.foldable p = true ↔ before.foldable p = true ∧ ¬ Gone before plan p := by
  rw [Body.foldable_iff hprogress.nodup, Body.foldable_iff hwf.nodup]
  constructor
  · rintro ⟨op, hop, rfl, hfoldable⟩
    rcases hprogress.origin op hop with ⟨op₀, hop₀, haddress⟩ | ⟨-, hplan, -⟩
    · have hkept := hprogress.kept_of_mem hop hop₀ haddress.symm
      refine ⟨⟨op₀, hop₀, haddress, ?_⟩, hprogress.gone op hop⟩
      rw [Operation.foldable, ← hkept.kind]
      exact hfoldable
    · simp [foldable_not_plan hplan] at hfoldable
  · rintro ⟨⟨op₀, hop₀, rfl, hfoldable⟩, hstays⟩
    obtain ⟨op, hop, hkept⟩ := hprogress.kept op₀ hop₀ hstays
    refine ⟨op, hop, hkept.address, ?_⟩
    rw [Operation.foldable, hkept.kind]
    exact hfoldable

/-- What a chain operation uses is not renamed. -/
theorem plan_of_uses {op₀ : Operation A} (hop₀ : op₀ ∈ before.ops)
    (hfoldable : op₀.foldable = true) {p : Nat} (huses : op₀.usesOp p = true) :
    plan p = none := by
  cases hplan : plan p with
  | none => rfl
  | some n =>
      have hnot := hwf.not_uses_tail (hprogress.plan_tail hplan) hop₀ hfoldable
      simp [hnot] at huses

theorem kept_operands {op₀ op : Operation A} (hop₀ : op₀ ∈ before.ops)
    (hfoldable : op₀.foldable = true) (hkept : Kept plan op₀ op) :
    op.operands = op₀.operands := by
  rw [hkept.operands]
  exact map_rename_eq fun p i hv =>
    hprogress.plan_of_uses hwf hop₀ hfoldable (Operation.usesOp_iff.2 ⟨i, hv⟩)

section

variable {t : Nat} {l : List Nat} (ht : t ∈ before.tails) (hl : Collects before.source t l)
  (hstays : ∀ p ∈ l, ¬ Gone before plan p)
include ht hl hstays

theorem stays_mem {p : Nat} (hp : p ∈ l) :
    ∃ op₀ ∈ before.ops, ∃ op ∈ body.ops, op₀.address = p ∧ op₀.foldable = true ∧
      Kept plan op₀ op ∧ op.operands = op₀.operands := by
  obtain ⟨op₀, hop₀, rfl, hfoldable⟩ :=
    (Body.foldable_iff hwf.nodup).1 (hwf.chain_foldable ht hl p hp)
  obtain ⟨op, hop, hkept⟩ := hprogress.kept op₀ hop₀ (hstays _ hp)
  exact ⟨op₀, hop₀, op, hop, rfl, hfoldable, hkept,
    hprogress.kept_operands hwf hop₀ hfoldable hkept⟩

theorem stays_source {p : Nat} (hp : p ∈ l) : body.source p = before.source p := by
  obtain ⟨op₀, hop₀, op, hop, rfl, -, hkept, hoperands⟩ :=
    hprogress.stays_mem hwf ht hl hstays hp
  rw [Body.source, Body.source, Body.rootDef_eq hprogress.nodup hop hkept.address,
    Body.rootDef_eq hwf.nodup hop₀ rfl, hoperands]
  cases hroot : op₀.operands.head?.bind Value.getDefiningOp with
  | none => rfl
  | some q =>
      have hiff : body.foldable q = true ↔ before.foldable q = true := by
        rw [hprogress.foldable_iff hwf]
        refine ⟨fun h => h.1, fun hq => ⟨hq, ?_⟩⟩
        have hsource : before.source op₀.address = some q := by
          rw [Body.source, Body.rootDef_eq hwf.nodup hop₀ rfl, hroot]
          exact Option.filter_eq_some_iff.2 ⟨rfl, hq⟩
        exact hstays _ (hl.mem_source hp hsource)
      rw [Option.filter_some, Option.filter_some, Bool.eq_iff_iff.2 hiff]

theorem stays_collects : Collects body.source t l :=
  hl.congr fun _ hm => hprogress.stays_source hwf ht hl hstays hm

theorem stays_collect : collect body.source body.ops.length t = some l := by
  obtain ⟨rank, hdescends, -⟩ := hwf.descends
  have hsub : ∀ m ∈ l, m ∈ body.ops.map Operation.address := by
    intro m hm
    obtain ⟨op₀, -, op, hop, rfl, -, hkept, -⟩ := hprogress.stays_mem hwf ht hl hstays hm
    exact List.mem_map.2 ⟨op, hop, hkept.address⟩
  have hlength := ((hdescends.nodup hl).subperm hsub).length_le
  rw [List.length_map] at hlength
  exact (hprogress.stays_collects hwf ht hl hstays).collect_eq hlength

end

section

variable {t : Nat} {l : List Nat} (ht : t ∈ before.tails) (hnew : t ∉ done)
  (hl : Collects before.source t l)
include ht hnew hl

/-- The chain to a tail that is still to come is untouched. -/
theorem chain_stays {p : Nat} (hp : p ∈ l) : ¬ Gone before plan p := by
  rintro ⟨t', n, l', hplan, hl', hp'⟩
  have heq := hwf.disjoint (hprogress.plan_tail hplan) ht hl' hl
    (hprogress.alone t' n l' hplan hl') hp' hp
  exact hnew (heq ▸ (hprogress.planned t' n hplan).1)

theorem chain_mem {p : Nat} (hp : p ∈ l) :
    ∃ op₀ ∈ before.ops, ∃ op ∈ body.ops, op₀.address = p ∧ op₀.foldable = true ∧
      Kept plan op₀ op ∧ op.operands = op₀.operands :=
  hprogress.stays_mem hwf ht hl (fun _ => hprogress.chain_stays hwf ht hnew hl) hp

end

end Progress

end SymReloc.Fold
