import SymReloc.Reloc.FoldStep

/-!
# The fold pass settles a module

A walk that starts at the tails reaches every chain operation that is the first operand of
the next one.  Where each of them is, the pass leaves none that is neither folded nor
marked, and a second run has nothing to do.  An operation that a chain operation takes as
another operand only is on no walk.
-/

namespace SymReloc.Fold

open WalkBack

variable {A B P : Type} (transfer : Transfer A B P)

/-! ### One chain, and all -/

/-- The operations of a chain, from the root to the tail. -/
theorem Body.chain_ends {body : Body A} {source : Nat → Option Nat} {t : Nat} {l : List Nat}
    (hl : Collects source t l) (hmem : ∀ p ∈ l, ∃ op ∈ body.ops, op.address = p) :
    ∃ root tail, (l.reverse.filterMap body.find).head? = some root ∧
      (l.reverse.filterMap body.find).getLast? = some tail ∧ tail.address = t ∧
        root.address ∈ l ∧ source root.address = none := by
  have haddresses := Body.filterMap_find fun p hp => hmem p (List.mem_reverse.1 hp)
  obtain ⟨pre, last, hlast, hlastnone⟩ := hl.last
  obtain ⟨rest, hrest⟩ := hl.head
  have hhead : ((l.reverse.filterMap body.find).map Operation.address).head? = some last := by
    rw [haddresses, hlast]
    simp
  have htail : ((l.reverse.filterMap body.find).map Operation.address).getLast? = some t := by
    rw [haddresses, hrest]
    simp
  rw [List.head?_map, Option.map_eq_some_iff] at hhead
  rw [List.getLast?_map, Option.map_eq_some_iff] at htail
  obtain ⟨root, hroot, rfl⟩ := hhead
  obtain ⟨tail, htail, rfl⟩ := htail
  exact ⟨root, tail, hroot, htail, rfl, by simp [hlast], hlastnone⟩

section

variable {before body : Body A} {done : List Nat} {plan : Nat → Option Nat}

theorem processChain_spec (hwf : before.WellFormed) (hprogress : Progress before done plan body)
    {t : Nat} (ht : t ∈ before.tails) (hnew : t ∉ done) :
    processChain transfer body t = .error .failure ∨
      ∃ body' plan', processChain transfer body t = .ok body' ∧
        Progress before (done ++ [t]) plan' body' := by
  obtain ⟨rank, hdescends, -⟩ := hwf.descends
  obtain ⟨l, hl⟩ := hdescends.collects t
  have hmem : ∀ p ∈ l, ∃ op ∈ body.ops, op.address = p := by
    intro p hp
    obtain ⟨op₀, -, op, hop, haddress, -, hkept, -⟩ := hprogress.chain_mem hwf ht hnew hl hp
    exact ⟨op, hop, hkept.address.trans haddress⟩
  have haddresses := Body.filterMap_find fun p hp => hmem p (List.mem_reverse.1 hp)
  obtain ⟨rootOp, tailOp, hrootop, htailop, htailaddress, hlastmem, hlastnone⟩ :=
    Body.chain_ends hl hmem
  unfold processChain
  rw [hprogress.stays_collect hwf ht hl fun _ => hprogress.chain_stays hwf ht hnew hl]
  dsimp only
  generalize hchain : l.reverse.filterMap body.find = chain at haddresses hrootop htailop
  have hmemchain : ∀ op ∈ chain, op ∈ body.ops ∧ op.address ∈ l := by
    intro op hop
    rw [← hchain] at hop
    obtain ⟨hop, haddress⟩ := Body.mem_filterMap_find hop
    exact ⟨hop, List.mem_reverse.1 haddress⟩
  rw [hrootop, htailop]
  dsimp only
  cases hverdict : verdict transfer body chain rootOp tailOp with
  | failed => exact .inl rfl
  | fallback reason =>
      exact .inr ⟨_, plan, rfl, hprogress.mark hwf ht hnew hl reason⟩
  | replace kind operands payload =>
      obtain ⟨hkind, huses, hoperands, hothers⟩ :=
        verdict_replace transfer hrootop htailop hverdict
      have hfind : ∀ p ∈ l, ∃ op ∈ chain, op.address = p := by
        intro p hp
        have hp : p ∈ chain.map Operation.address := by
          rw [haddresses]
          exact List.mem_reverse.2 hp
        exact List.mem_map.1 hp
      have hone : ∀ p ∈ l, p ≠ t → body.hasOneUse (.result p 0) = true := by
        intro p hp hne
        obtain ⟨op, hop, rfl⟩ := hfind p hp
        exact huses op hop (htailaddress ▸ hne)
      have halone : ∀ p ∈ l, p ≠ t → ∀ op ∈ before.ops, op.usesOp p = true →
          op.address ∈ l := fun p hp hne op hop huse =>
        hprogress.alone_of_hasOneUse hwf ht hnew hl hone hp hne hop huse
      -- the operands of the plan operation are those of the root
      obtain ⟨root₀, hroot₀, root, hroot, hroot₀address, hrootfoldable, hrootkept, hrootoperands⟩ :=
        hprogress.chain_mem hwf ht hnew hl hlastmem
      have hrootmem := hmemchain rootOp (List.mem_of_head? hrootop)
      cases Body.eq_of_address hprogress.nodup hrootmem.1 hroot
        (hroot₀address.symm.trans hrootkept.address.symm)
      have harity := hwf.arity root₀ hroot₀ hrootfoldable
      have hsame : operands = root₀.operands := by
        rcases hoperands with heq | ⟨heq, hkind⟩
        · rw [heq, hrootoperands]
        · rw [hrootkept.kind] at hkind
          rw [if_neg hkind] at harity
          rw [heq, hrootoperands, List.take_of_length_le (Nat.le_of_eq harity)]
      have hsingle : ∀ op ∈ before.ops, op.address ∈ l → before.source op.address ≠ none →
          op.operands.length = 1 := by
        intro op hop hopmem hsource
        obtain ⟨op₀, hop₀, op', hop', haddress, hfoldable, hkept, -⟩ :=
          hprogress.chain_mem hwf ht hnew hl hopmem
        cases Body.eq_of_address hwf.nodup hop₀ hop haddress
        obtain ⟨d, hd, hdaddress⟩ := hfind _ hopmem
        cases Body.eq_of_address hprogress.nodup hop' (hmemchain d hd).1
          (hkept.address.trans hdaddress.symm)
        have hne : op'.address ≠ rootOp.address := by
          intro heq
          rw [hkept.address] at heq
          exact hsource (heq ▸ hlastnone)
        have hnot := hothers op' hd hne
        rw [hkept.kind] at hnot
        have harity := hwf.arity op hop hfoldable
        rwa [if_neg hnot] at harity
      have herase : eraseAll l (insertPlan body t kind operands payload) = _ :=
        hprogress.erase_chain hwf ht hnew hl halone hroot₀ (hroot₀address ▸ hlastmem)
          (hroot₀address ▸ hlastnone) hsame
      exact .inr ⟨_, extend plan t body.next, herase, hprogress.fold hwf ht hnew hl halone hsingle
        hroot₀ (hroot₀address ▸ hlastmem) (hroot₀address ▸ hlastnone) hsame hkind⟩

theorem processAll_spec (hwf : before.WellFormed) {rest : List Nat}
    (hprogress : Progress before done plan body) (htails : done ++ rest = before.tails) :
    processAll transfer rest body = .error .failure ∨
      ∃ body' plan', processAll transfer rest body = .ok body' ∧
        Progress before before.tails plan' body' := by
  have hnodup : before.tails.Nodup :=
    hwf.nodup.sublist (List.filter_sublist.map _)
  induction rest generalizing done plan body with
  | nil =>
      rw [List.append_nil] at htails
      exact .inr ⟨body, plan, rfl, htails ▸ hprogress⟩
  | cons t rest ih =>
      have ht : t ∈ before.tails := by simp [← htails]
      have hnew : t ∉ done := by
        rw [← htails] at hnodup
        exact fun hmem => (List.nodup_append.1 hnodup).2.2 t hmem t List.mem_cons_self rfl
      unfold processAll
      rcases processChain_spec transfer hwf hprogress ht hnew with herror |
        ⟨body', plan', hok, hnext⟩
      · rw [herror]
        exact .inl rfl
      · rw [hok]
        exact ih hnext (by rw [← htails, List.append_assoc]; rfl)

theorem runOnOperation_spec (hwf : before.WellFormed) :
    runOnOperation transfer before = .error .failure ∨
      ∃ after plan, runOnOperation transfer before = .ok after ∧
        Progress before before.tails plan after :=
  processAll_spec transfer hwf (Progress.start hwf) rfl

end

/-! ### What a settled module is -/

/-- The chain to a tail: what the walk back from it collects. -/
def Body.Chain (body : Body A) (t : Nat) (l : List Nat) : Prop := Collects body.source t l

/-- One plan operation, with the operands of the chain's root, stands for the chain. -/
def Replaced (before after : Body A) (l : List Nat) (n : Nat) : Prop :=
  (∀ op ∈ after.ops, op.address ∉ l) ∧
    ∃ op ∈ after.ops, op.address = n ∧ isPlanResultOp op.kind = true ∧
      ∃ root ∈ before.ops, root.address ∈ l ∧ before.source root.address = none ∧
        op.operands = root.operands

/-- Each operation of the chain is there as it was, but for its marks. -/
def Intact (before after : Body A) (l : List Nat) : Prop :=
  ∀ p ∈ l, ∃ op₀ ∈ before.ops, ∃ op ∈ after.ops, op₀.address = p ∧
    op = { op₀ with fallback := op.fallback, fallbackReason := op.fallbackReason }

structure Settled (before after : Body A) : Prop where
  marked : ∀ op ∈ after.ops, op.foldable = true → op.fallback = true
  chains : ∃ plan : Nat → Option Nat,
    (∀ t ∈ before.tails, ∀ l, before.Chain t l →
      match plan t with
      | some n => Replaced before after l n
      | none => Intact before after l) ∧
    ∀ op₀ ∈ before.ops, ∀ op ∈ after.ops, op.address = op₀.address →
      op.operands = op₀.operands.map (rename plan)
  defined : ∀ op ∈ after.ops, ∀ p i, .result p i ∈ op.operands → ∃ d ∈ after.ops, d.address = p
  again : runOnOperation transfer after = .ok after

/-- A chain operation that chain operations use is the first operand of one of them. -/
def Carried (body : Body A) (op : Operation A) : Prop :=
  (∃ user ∈ body.ops, user.foldable = true ∧ op.result ∈ user.operands) →
    ∃ user ∈ body.ops, user.foldable = true ∧ user.operands.head? = some op.result

section

variable {before after : Body A} {plan : Nat → Option Nat} (hwf : before.WellFormed)
include hwf

/-- Where all are carried, every chain operation is on the way back from a tail. -/
theorem on_chain (hcarried : ∀ op ∈ before.ops, op.foldable = true → Carried before op)
    {op : Operation A} (hop : op ∈ before.ops) (hfoldable : op.foldable = true) :
    ∃ t ∈ before.tails, ∃ l, before.Chain t l ∧ op.address ∈ l := by
  obtain ⟨rank, hdescends, hrank⟩ := hwf.descends
  obtain ⟨bound, hbound⟩ : ∃ bound, ∀ op ∈ before.ops, rank op.address ≤ bound :=
    ⟨(before.ops.map fun op => rank op.address).sum, fun op hop =>
      List.single_le_sum (by simp) _ (List.mem_map.2 ⟨op, hop, rfl⟩)⟩
  induction hn : bound - rank op.address using Nat.strongRecOn generalizing op with
  | ind n ih =>
      by_cases htail : op.address ∈ before.tails
      · obtain ⟨l, hl⟩ := hdescends.collects op.address
        exact ⟨op.address, htail, l, hl, hl.mem_self⟩
      · have huser : ∃ user ∈ before.ops, user.foldable = true ∧ op.result ∈ user.operands := by
          by_contra hnone
          refine htail (hwf.mem_tails.2 ⟨op, hop, rfl, hfoldable, fun user huser huses => ?_⟩)
          obtain ⟨i, hv⟩ := Operation.usesOp_iff.1 huses
          have hzero := hwf.index_zero huser hv
            ((Body.foldable_iff hwf.nodup).2 ⟨op, hop, rfl, hfoldable⟩)
          subst hzero
          by_contra htrue
          exact hnone ⟨user, huser, by simpa using htrue, hv⟩
        obtain ⟨user, huser, huserfoldable, hhead⟩ := hcarried op hop hfoldable huser
        have hsource := Body.source_of_head hwf.nodup huser hhead
          ((Body.foldable_iff hwf.nodup).2 ⟨op, hop, rfl, hfoldable⟩)
        have hlt := hdescends _ _ hsource
        have hle := hbound user huser
        obtain ⟨t, ht, l, hl, hmem⟩ := ih _ (by omega) huser huserfoldable rfl
        exact ⟨t, ht, l, hl, hl.mem_source hmem hsource⟩

variable (hprogress : Progress before before.tails plan after)
include hprogress

theorem intact {t : Nat} {l : List Nat} (ht : t ∈ before.tails) (hl : before.Chain t l)
    (hplan : plan t = none) : Intact before after l := by
  intro p hp
  obtain ⟨op₀, hop₀, rfl, hfoldable⟩ :=
    (Body.foldable_iff hwf.nodup).1 (hwf.chain_foldable ht hl p hp)
  have hstays : ¬ Gone before plan op₀.address := by
    rintro ⟨s, n, l', hs, hl', hp'⟩
    have heq := hwf.disjoint (hprogress.plan_tail hs) ht hl' hl (hprogress.alone s n l' hs hl')
      hp' hp
    simp [heq, hplan] at hs
  obtain ⟨op, hop, hkept⟩ := hprogress.kept op₀ hop₀ hstays
  refine ⟨op₀, hop₀, op, hop, rfl, ?_⟩
  rw [← hkept.address, ← hkept.kind, ← hprogress.kept_operands hwf hop₀ hfoldable hkept,
    ← hkept.payload]

omit hwf in
theorem replaced {t n : Nat} {l : List Nat} (hl : before.Chain t l) (hplan : plan t = some n) :
    Replaced before after l n :=
  ⟨fun op hop hmem => hprogress.gone op hop ⟨t, n, l, hplan, hl, hmem⟩,
    hprogress.plans t n l hplan hl⟩

/-- No operation that is left uses one that is erased. -/
theorem defined_after {op : Operation A} (hop : op ∈ after.ops) {p i : Nat}
    (hv : .result p i ∈ op.operands) : ∃ d ∈ after.ops, d.address = p := by
  obtain ⟨rank, hdescends, -⟩ := hwf.descends
  -- what a kept operation or a root used in the module that the pass began with
  have hfrom : ∀ op₀ ∈ before.ops, ¬ (∃ s n l, plan s = some n ∧ before.Chain s l ∧
      op₀.address ∈ l ∧ before.source op₀.address ≠ none) →
      ∀ q j, .result q j ∈ op₀.operands → plan q = none → ∃ d ∈ after.ops, d.address = q := by
    intro op₀ hop₀ hroot q j hq hnone
    obtain ⟨d, hd, rfl, -⟩ := hwf.defined op₀ hop₀ q j hq
    by_cases hgone : Gone before plan d.address
    · obtain ⟨s, n, l, hs, hl, hmem⟩ := hgone
      have hne : d.address ≠ s := fun heq => by simp [← heq, hnone] at hs
      have huser := hprogress.alone s n l hs hl _ hmem hne op₀ hop₀
        (Operation.usesOp_iff.2 ⟨j, hq⟩)
      cases hsource : before.source op₀.address with
      | some r => exact absurd ⟨s, n, l, hs, hl, huser, by simp [hsource]⟩ hroot
      | none =>
          -- the root has the lowest rank of its chain
          obtain ⟨rank, hdescends, hrank⟩ := hwf.descends
          have hlt := hrank op₀ hop₀ _ (Operation.usesOp_iff.2 ⟨j, hq⟩)
          obtain ⟨pre, last, rfl, hlastnone⟩ := hl.last
          have hsame := hl.root_unique (by simp) huser hlastnone hsource
          have hpairwise := hdescends.pairwise hl
          rcases List.mem_append.1 hmem with hmem | hmem
          · have hgt := (List.pairwise_append.1 hpairwise).2.2 _ hmem last List.mem_cons_self
            rw [hsame] at hgt
            omega
          · rw [List.mem_singleton.1 hmem, hsame] at hlt
            exact absurd hlt (Nat.lt_irrefl _)
    · obtain ⟨d', hd', hkept⟩ := hprogress.kept d hd hgone
      exact ⟨d', hd', hkept.address⟩
  rcases hprogress.origin op hop with ⟨op₀, hop₀, haddress⟩ | ⟨-, -, s, hs⟩
  · have hkept := hprogress.kept_of_mem hop hop₀ haddress.symm
    rw [hkept.operands] at hv
    obtain ⟨v, hv, heq⟩ := List.mem_map.1 hv
    cases v with
    | argument k => cases heq
    | result q j =>
        cases hq : plan q with
        | none =>
            rw [rename_result hq] at heq
            cases heq
            refine hfrom op₀ hop₀ ?_ p i hv hq
            rintro ⟨s, n, l, hs, hl, hmem, -⟩
            exact hprogress.gone op hop ⟨s, n, l, hs, hl, haddress ▸ hmem⟩
        | some n =>
            simp only [rename, hq] at heq
            cases heq
            obtain ⟨l, hl⟩ := hdescends.collects q
            obtain ⟨d, hd, hdaddress, -⟩ := hprogress.plans q p l hq hl
            exact ⟨d, hd, hdaddress⟩
  · obtain ⟨l, hl⟩ := hdescends.collects s
    obtain ⟨op', hop', haddress, -, root, hroot, hrootmem, hrootnone, hoperands⟩ :=
      hprogress.plans s _ l hs hl
    cases Body.eq_of_address hprogress.nodup hop' hop haddress
    rw [hoperands] at hv
    obtain ⟨d, hd, hdaddress, hfoldable⟩ := (Body.foldable_iff hwf.nodup).1
      (hwf.chain_foldable (hprogress.plan_tail hs) hl _ hrootmem)
    cases Body.eq_of_address hwf.nodup hd hroot hdaddress
    refine hfrom root hroot ?_ p i hv
      (hprogress.plan_of_uses hwf hroot hfoldable (Operation.usesOp_iff.2 ⟨i, hv⟩))
    rintro ⟨-, -, -, -, -, -, hsource⟩
    exact hsource hrootnone

end

/-! ### The second run -/

theorem markFallback_self {body : Body A} {l : List Nat} {reason : String}
    (hmarked : ∀ op ∈ body.ops, op.address ∈ l → op.fallback = true)
    (hreasons : (∃ op ∈ body.ops, op.address ∈ l ∧ isTypedValueTransformOp op.kind = true) →
      ∀ op ∈ body.ops, op.address ∈ l → op.fallbackReason.isSome = true) :
    markFallback body l reason = body := by
  have hops : ∀ typed, (typed = true →
        ∃ op ∈ body.ops, op.address ∈ l ∧ isTypedValueTransformOp op.kind = true) →
      (body.ops.map fun op => if op.address ∈ l then
        { op with
          fallback := true
          fallbackReason :=
            if typed && op.fallbackReason.isNone then some reason else op.fallbackReason }
        else op) = body.ops := by
    intro typed htyped
    rw [List.map_congr_left (g := id), List.map_id]
    intro op hop
    by_cases hmem : op.address ∈ l
    · have hreason : (typed && op.fallbackReason.isNone) = false := by
        cases htrue : typed with
        | false => rfl
        | true =>
            have hsome := hreasons (htyped htrue) op hop hmem
            cases hreason : op.fallbackReason with
            | none => simp [hreason] at hsome
            | some _ => rfl
      rw [if_pos hmem, hreason]
      have hfallback := hmarked op hop hmem
      cases op
      simp_all
    · exact if_neg hmem
  unfold markFallback
  dsimp only
  rw [hops]
  intro htyped
  obtain ⟨p, hp, hany⟩ := List.any_eq_true.1 htyped
  cases hfind : body.find p with
  | none => simp [hfind] at hany
  | some op =>
      obtain ⟨hop, rfl⟩ := Body.mem_of_find hfind
      exact ⟨op, hop, hp, by simpa [hfind] using hany⟩

theorem processAll_self {body : Body A} {list : List Nat}
    (h : ∀ t ∈ list, processChain transfer body t = .ok body) :
    processAll transfer list body = .ok body := by
  induction list with
  | nil => rfl
  | cons t rest ih =>
      unfold processAll
      rw [h t List.mem_cons_self]
      exact ih fun s hs => h s (List.mem_cons_of_mem _ hs)

theorem Body.tail_users {body : Body A} {t : Nat} (ht : t ∈ body.tails) :
    ∃ op ∈ body.ops, op.address = t ∧ op.foldable = true ∧
      ∀ user ∈ body.ops, op.result ∈ user.operands → user.foldable = false := by
  simp only [Body.tails, List.mem_map, List.mem_filter, Bool.and_eq_true, Bool.not_eq_true',
    List.any_eq_false, Body.getUsers, decide_eq_true_eq, Bool.not_eq_true] at ht
  obtain ⟨op, ⟨hop, hfoldable, husers⟩, rfl⟩ := ht
  exact ⟨op, hop, rfl, hfoldable, fun user huser hv => husers user ⟨huser, hv⟩⟩

section

variable {before after : Body A} {plan : Nat → Option Nat} (hwf : before.WellFormed)
  (hprogress : Progress before before.tails plan after)
  (hcarried : ∀ op ∈ before.ops, op.foldable = true → Carried before op)
include hwf hprogress hcarried

/-- A chain operation that is left is on a chain that stays. -/
theorem left_on_chain {op : Operation A} (hop : op ∈ after.ops) (hfoldable : op.foldable = true) :
    ∃ t ∈ before.tails, ∃ l, before.Chain t l ∧ op.address ∈ l ∧ plan t = none := by
  rcases hprogress.origin op hop with ⟨op₀, hop₀, haddress⟩ | ⟨-, hplan, -⟩
  · have hkept := hprogress.kept_of_mem hop hop₀ haddress.symm
    rw [Operation.foldable, hkept.kind] at hfoldable
    obtain ⟨t, ht, l, hl, hmem⟩ := on_chain hwf hcarried hop₀ hfoldable
    refine ⟨t, ht, l, hl, haddress ▸ hmem, ?_⟩
    cases hplan : plan t with
    | none => rfl
    | some n => exact absurd ⟨t, n, l, hplan, hl, haddress ▸ hmem⟩ (hprogress.gone op hop)
  · simp [foldable_not_plan hplan] at hfoldable

theorem left_marked {op : Operation A} (hop : op ∈ after.ops) (hfoldable : op.foldable = true) :
    op.fallback = true := by
  obtain ⟨t, ht, l, hl, hmem, hplan⟩ := left_on_chain hwf hprogress hcarried hop hfoldable
  obtain ⟨op₀, hop₀, haddress, -⟩ :=
    (Body.foldable_iff hwf.nodup).1 (hwf.chain_foldable ht hl _ hmem)
  exact (hprogress.marks op₀ hop₀ op hop haddress.symm).2 (.inr ⟨t, ht, hplan, l, hl, hmem⟩)

/-- The tails that are left are old ones, each with its old chain. -/
theorem left_tail {t : Nat} (ht : t ∈ after.tails) :
    t ∈ before.tails ∧ plan t = none := by
  obtain ⟨op, hop, rfl, hfoldable, husers⟩ := Body.tail_users ht
  obtain ⟨s, hs, l, hl, hmem, hplan⟩ := left_on_chain hwf hprogress hcarried hop hfoldable
  by_cases heq : op.address = s
  · exact heq ▸ ⟨hs, hplan⟩
  · obtain ⟨user₀, huser₀, hmem', huserfoldable, hv⟩ := hwf.successor hs hl hmem heq
    obtain ⟨op₀, hop₀, user, huser, haddress, hsame⟩ :=
      intact hwf hprogress hs hl hplan _ hmem'
    cases Body.eq_of_address hwf.nodup hop₀ huser₀ haddress
    have hnot := husers user huser (by rw [hsame]; exact hv)
    rw [hsame] at hnot
    exact absurd huserfoldable (by simpa [Operation.foldable] using hnot)

theorem second_run {t : Nat} (ht : t ∈ after.tails) :
    processChain transfer after t = .ok after := by
  obtain ⟨hold, hplan⟩ := left_tail hwf hprogress hcarried ht
  obtain ⟨rank, hdescends, -⟩ := hwf.descends
  obtain ⟨l, hl⟩ := hdescends.collects t
  have hintact := intact hwf hprogress hold hl hplan
  have hstays : ∀ p ∈ l, ¬ Gone before plan p := by
    intro p hp
    obtain ⟨op₀, -, op, hop, rfl, hsame⟩ := hintact p hp
    have haddress : op.address = op₀.address := by rw [hsame]
    exact haddress ▸ hprogress.gone op hop
  have hmem : ∀ p ∈ l, ∃ op ∈ after.ops, op.address = p := by
    intro p hp
    obtain ⟨op₀, -, op, hop, rfl, hsame⟩ := hintact p hp
    exact ⟨op, hop, by rw [hsame]⟩
  have hmarked : ∀ op ∈ after.ops, op.address ∈ l → op.fallback = true := by
    intro op hop hin
    obtain ⟨op₀, hop₀, haddress, -⟩ :=
      (Body.foldable_iff hwf.nodup).1 (hwf.chain_foldable hold hl _ hin)
    exact (hprogress.marks op₀ hop₀ op hop haddress.symm).2 (.inr ⟨t, hold, hplan, l, hl, hin⟩)
  obtain ⟨root, tail, hroot, htail, -, -, -⟩ := Body.chain_ends hl hmem
  have htailmem := Body.mem_filterMap_find (List.mem_of_getLast? htail)
  have hverdict : verdict transfer after (l.reverse.filterMap after.find) root tail =
      .fallback "marked" := by
    rw [verdict, if_pos]
    exact List.any_eq_true.2 ⟨tail, List.mem_of_getLast? htail,
      hmarked tail htailmem.1 (List.mem_reverse.1 htailmem.2)⟩
  unfold processChain
  rw [hprogress.stays_collect hwf hold hl hstays]
  dsimp only
  rw [hroot, htail]
  dsimp only
  rw [hverdict]
  dsimp only
  rw [markFallback_self hmarked]
  rintro ⟨op, hop, hin, htyped⟩
  refine hprogress.reasons t hold hplan l hl ?_
  obtain ⟨op₀, hop₀, haddress, -⟩ :=
    (Body.foldable_iff hwf.nodup).1 (hwf.chain_foldable hold hl _ hin)
  refine ⟨op₀, hop₀, haddress ▸ hin, ?_⟩
  rw [← (hprogress.kept_of_mem hop hop₀ haddress.symm).kind]
  exact htyped

theorem settled : Settled transfer before after where
  marked := fun op hop hfoldable => left_marked hwf hprogress hcarried hop hfoldable
  chains := by
    refine ⟨plan, fun t ht l hl => ?_, fun op₀ hop₀ op hop haddress =>
      (hprogress.kept_of_mem hop hop₀ haddress).operands⟩
    cases hplan : plan t with
    | none => exact intact hwf hprogress ht hl hplan
    | some n => exact replaced hprogress hl hplan
  defined := fun op hop p i hv => defined_after hwf hprogress hop hv
  again := processAll_self transfer fun t ht => second_run transfer hwf hprogress hcarried ht

end

/-- In a module that is settled, an operation without the marker was carried. -/
theorem Settled.carried {before after : Body A} {plan : Nat → Option Nat}
    (hsettled : Settled transfer before after) (hwf : before.WellFormed)
    (hprogress : Progress before before.tails plan after) {op : Operation A}
    (hop : op ∈ before.ops) (hfoldable : op.foldable = true) (hunmarked : op.fallback = false) :
    Carried before op := by
  rintro ⟨user, huser, huserfoldable, hv⟩
  have hchain : ∃ t ∈ before.tails, ∃ l, before.Chain t l ∧ op.address ∈ l := by
    by_cases hgone : Gone before plan op.address
    · obtain ⟨t, n, l, hplan, hl, hmem⟩ := hgone
      exact ⟨t, hprogress.plan_tail hplan, l, hl, hmem⟩
    · obtain ⟨op', hop', hkept⟩ := hprogress.kept op hop hgone
      have hmarked := hsettled.marked op' hop' (by
        rw [Operation.foldable, hkept.kind]
        exact hfoldable)
      rcases (hprogress.marks op hop op' hop' hkept.address).1 hmarked with
        htrue | ⟨t, ht, -, l, hl, hmem⟩
      · simp [hunmarked] at htrue
      · exact ⟨t, ht, l, hl, hkept.address ▸ hmem⟩
  obtain ⟨t, ht, l, hl, hmem⟩ := hchain
  have hne : op.address ≠ t := by
    rintro rfl
    have hnot := hwf.not_uses_tail ht huser huserfoldable
    simp [Operation.usesOp_iff.2 ⟨0, hv⟩] at hnot
  obtain ⟨pre, s, post, rfl, hs⟩ := hl.split hmem hne
  obtain ⟨next, hnext, rfl, ⟨i, hhead⟩, hop'⟩ := Body.source_eq_some hs
  have hzero := hwf.index_zero hnext (List.mem_of_head? hhead) hop'
  subst hzero
  obtain ⟨d, hd, hdaddress, hdfoldable⟩ := (Body.foldable_iff hwf.nodup).1
    (hwf.chain_foldable ht hl next.address (by simp))
  cases Body.eq_of_address hwf.nodup hd hnext hdaddress
  exact ⟨_, hnext, hdfoldable, hhead⟩

/-- The pass settles a module whose chain operations are all carried, and leaves one that is
    not carried, and has no marker of its own, neither folded nor marked; it never erases an
    operation that is in use or touches one that is erased. -/
theorem runOnOperation_settles {before : Body A} (hwf : before.WellFormed) :
    (∀ error, runOnOperation transfer before = .error error → error = .failure) ∧
      ∀ after, runOnOperation transfer before = .ok after →
        ((∀ op ∈ before.ops, op.foldable = true → Carried before op) →
          Settled transfer before after) ∧
        (Settled transfer before after → ∀ op ∈ before.ops, op.foldable = true →
          op.fallback = false → Carried before op) := by
  rcases runOnOperation_spec transfer hwf with herror | ⟨after, plan, hok, hprogress⟩
  · rw [herror]
    exact ⟨fun error heq => (Except.error.inj heq).symm, nofun⟩
  · rw [hok]
    refine ⟨nofun, fun after' heq => ?_⟩
    cases heq
    exact ⟨settled transfer hwf hprogress, fun hsettled op hop hfoldable hunmarked =>
      hsettled.carried transfer hwf hprogress hop hfoldable hunmarked⟩

/-! ### Two modules -/

/-- Transfer functions under which everything folds. -/
def Transfer.always : Transfer Unit Unit Unit where
  start _ := ()
  foldChainOp _ _ _ := .ok ()
  hasStages _ := false
  finalize _ := some ()
  finalizeTyped _ := some ()
  canonicalize := true
  canonicalizePlan := some
  canonicalizeTypedPlan := some
  policy _ := "exact"
  indexedPlan _ _ _ := some ()
  planResult _ _ _ := ()

/-- `%0 = transpose %a; %1 = reshape %0; return %1`. -/
def straightLine : Body Unit :=
  ⟨[⟨0, .transpose, [.argument 0], (), false, none⟩,
    ⟨1, .reshape, [.result 0 0], (), false, none⟩,
    ⟨2, .foreign, [.result 1 0], (), false, none⟩], 3⟩

/-- `%0 = reshape %i; %1 = index_select %x, %0; return %1`. -/
def reshapedIndices : Body Unit :=
  ⟨[⟨0, .reshape, [.argument 1], (), false, none⟩,
    ⟨1, .indexSelect, [.argument 0, .result 0 0], (), false, none⟩,
    ⟨2, .foreign, [.result 1 0], (), false, none⟩], 3⟩

theorem straightLine_wellFormed : straightLine.WellFormed where
  nodup := by decide
  address_lt := by decide
  defined := by simp [straightLine]
  arity := by decide
  acyclic := ⟨id, by simp [straightLine]⟩

theorem reshapedIndices_wellFormed : reshapedIndices.WellFormed where
  nodup := by decide
  address_lt := by decide
  defined := by simp [reshapedIndices]
  arity := by decide
  acyclic := ⟨id, by simp [reshapedIndices]⟩

theorem runOnOperation_settles_straightLine :
    ∃ after, runOnOperation Transfer.always straightLine = .ok after ∧
      Settled Transfer.always straightLine after := by
  have hok : runOnOperation Transfer.always straightLine = .ok _ := rfl
  refine ⟨_, hok, ((runOnOperation_settles Transfer.always straightLine_wellFormed).2 _ hok).1 ?_⟩
  unfold Carried
  decide

/-- The reshape of the indices is on no chain: the pass folds the selection, leaves the
    reshape without a marker, and would fold it if it ran again. -/
theorem reshapedIndices_unsettled : reshapedIndices.WellFormed ∧
    ∃ after, runOnOperation Transfer.always reshapedIndices = .ok after ∧
      ¬ Settled Transfer.always reshapedIndices after := by
  have hok : runOnOperation Transfer.always reshapedIndices = .ok _ := rfl
  refine ⟨reshapedIndices_wellFormed, _, hok, fun hsettled => ?_⟩
  exact absurd hsettled.marked (by decide)

end SymReloc.Fold
