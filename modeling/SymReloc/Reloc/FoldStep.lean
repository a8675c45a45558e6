import Mathlib.Algebra.Order.BigOperators.Group.List
import Mathlib.Algebra.Order.Group.Nat
import SymReloc.Reloc.FoldProgress

/-!
# One chain of the fold pass

A chain that is not folded is marked, and one that is folded goes as a whole: its tail's
uses pass to the plan operation, and each other member had its one use in the chain.
-/

namespace SymReloc.Fold

open WalkBack

variable {A B P : Type} (transfer : Transfer A B P)

/-! ### The verdict -/

section

variable {body : Body A} {chain : List (Operation A)} {root tail : Operation A} {kind : Kind}
  {operands : List Value} {payload : A}

theorem foldIndexed_replace (hhead : chain.head? = some root) (hlast : chain.getLast? = some tail)
    (h : foldIndexed transfer chain root tail = .replace kind operands payload) :
    isPlanResultOp kind = true ∧ operands = root.operands ∧
      ∀ op ∈ chain, op.address ≠ root.address → op.kind ≠ .indexSelect := by
  unfold foldIndexed at h
  split at h
  · cases h
  · rename_i hshape
    simp only [Bool.or_eq_true, Bool.and_eq_true, decide_eq_true_eq, not_or, not_and,
      Decidable.not_not] at hshape
    obtain ⟨⟨-, hlength⟩, hcast⟩ := hshape
    dsimp only at h
    split at h
    · cases h
    · cases h
      refine ⟨rfl, rfl, fun op hop hne => ?_⟩
      match chain, hhead, hlast, hlength, hcast with
      | [a], hhead, _, _, _ =>
          cases hhead
          exact absurd (congrArg Operation.address (List.mem_singleton.1 hop)) hne
      | [a, b], hhead, hlast, _, hcast =>
          cases hhead
          cases hlast
          simp only [List.mem_cons, List.not_mem_nil, or_false] at hop
          rcases hop with rfl | rfl
          · exact absurd rfl hne
          · have hkind : op.kind = .cast := hcast rfl
            simp [hkind]
      | a :: b :: c :: rest, _, _, hlength, _ => simp at hlength

theorem foldPlan_replace
    (h : foldPlan transfer chain root tail = .replace kind operands payload) :
    isPlanResultOp kind = true ∧ operands = root.operands.take 1 := by
  unfold foldPlan at h
  split at h
  · cases h
  · split at h
    all_goals
      split at h
      · cases h
      · cases h
        exact ⟨rfl, rfl⟩

theorem verdict_replace (hhead : chain.head? = some root) (hlast : chain.getLast? = some tail)
    (h : verdict transfer body chain root tail = .replace kind operands payload) :
    isPlanResultOp kind = true ∧
      (∀ op ∈ chain, op.address ≠ tail.address → body.hasOneUse op.result = true) ∧
      (operands = root.operands ∨
        operands = root.operands.take 1 ∧ root.kind ≠ .indexSelect) ∧
      ∀ op ∈ chain, op.address ≠ root.address → op.kind ≠ .indexSelect := by
  unfold verdict at h
  split at h
  · cases h
  split at h
  · cases h
  rename_i huses
  have hone : ∀ op ∈ chain, op.address ≠ tail.address → body.hasOneUse op.result = true := by
    simpa using huses
  split at h
  · cases h
  split at h
  · cases h
  split at h
  · obtain ⟨hkind, hoperands, hothers⟩ := foldIndexed_replace transfer hhead hlast h
    exact ⟨hkind, hone, .inl hoperands, hothers⟩
  · rename_i hselect
    have hnone : ∀ op ∈ chain, op.kind ≠ .indexSelect := by simpa using hselect
    obtain ⟨hkind, hoperands⟩ := foldPlan_replace transfer h
    exact ⟨hkind, hone, .inr ⟨hoperands, hnone root (List.mem_of_head? hhead)⟩,
      fun op hop _ => hnone op hop⟩

end

/-! ### The operations of a chain -/

theorem Body.filterMap_find {body : Body A} {l : List Nat}
    (h : ∀ p ∈ l, ∃ op ∈ body.ops, op.address = p) :
    (l.filterMap body.find).map Operation.address = l := by
  induction l with
  | nil => rfl
  | cons p rest ih =>
      have hrest := ih fun q hq => h q (List.mem_cons_of_mem _ hq)
      obtain ⟨op, hop, haddress⟩ := h p List.mem_cons_self
      cases hfind : body.find p with
      | none =>
          unfold Body.find at hfind
          exact absurd haddress (by simpa using List.find?_eq_none.1 hfind op hop)
      | some d =>
          rw [List.filterMap_cons_some hfind, List.map_cons, hrest, (Body.mem_of_find hfind).2]

theorem Body.mem_filterMap_find {body : Body A} {l : List Nat} {op : Operation A}
    (h : op ∈ l.filterMap body.find) : op ∈ body.ops ∧ op.address ∈ l := by
  obtain ⟨p, hp, hfind⟩ := List.mem_filterMap.1 h
  obtain ⟨hop, rfl⟩ := Body.mem_of_find hfind
  exact ⟨hop, hp⟩

/-- Two operations that use a value with one use are the same. -/
theorem eq_of_hasOneUse {body : Body A} {v : Value} {op d : Operation A}
    (hone : body.hasOneUse v = true) (hop : op ∈ body.ops) (hd : d ∈ body.ops)
    (hv : v ∈ op.operands) (hv' : v ∈ d.operands) : op = d := by
  have hsum : (body.ops.map fun op => op.operands.count v).sum = 1 := by
    simpa [Body.hasOneUse] using hone
  clear hone
  generalize body.ops = ops at hsum hop hd
  have hpos : 1 ≤ op.operands.count v := List.count_pos_iff.2 hv
  have hpos' : 1 ≤ d.operands.count v := List.count_pos_iff.2 hv'
  induction ops with
  | nil => cases hop
  | cons a rest ih =>
      have hge : ∀ e ∈ rest, e.operands.count v ≤
          (rest.map fun op => op.operands.count v).sum := fun e he =>
        List.single_le_sum (by simp) _ (List.mem_map.2 ⟨e, he, rfl⟩)
      rw [List.map_cons, List.sum_cons] at hsum
      rcases List.mem_cons.1 hop with hopa | hoprest
      · rcases List.mem_cons.1 hd with hda | hdrest
        · exact hopa.trans hda.symm
        · have hle := hge d hdrest
          rw [hopa] at hpos
          omega
      · have hle := hge op hoprest
        rcases List.mem_cons.1 hd with hda | hdrest
        · rw [hda] at hpos'
          omega
        · exact ih (by omega) hoprest hdrest

/-! ### Erasing -/

/-- Operations whose users all come before them in the list can be erased in its order. -/
theorem eraseAll_eq {l : List Nat} {body : Body A}
    (h : ∀ before p after, l = before ++ p :: after → ∀ op ∈ body.ops, op.usesOp p = true →
      op.address ∈ before) :
    eraseAll l body = .ok { body with ops := body.ops.filter fun op => op.address ∉ l } := by
  induction l generalizing body with
  | nil => simp [eraseAll]
  | cons p rest ih =>
      have hunused : (body.ops.any fun op => op.usesOp p) = false := by
        rw [List.any_eq_false]
        intro op hop huses
        have hmem := h [] p rest rfl op hop huses
        cases hmem
      rw [eraseAll, erase, hunused, if_neg (by simp)]
      dsimp only
      rw [ih]
      · rw [List.filter_filter]
        have hsame : ∀ op : Operation A, (decide (op.address ∉ rest) && decide (op.address ≠ p)) =
            decide (op.address ∉ p :: rest) := by
          intro op
          simp [Bool.and_comm, not_or]
        simp only [hsame]
      · intro before q after heq op hop huses
        simp only [List.mem_filter, decide_eq_true_eq] at hop
        have hmem := h (p :: before) q after (by rw [heq, List.cons_append]) op hop.1 huses
        rcases List.mem_cons.1 hmem with heq | hmem
        · exact absurd heq hop.2
        · exact hmem

/-! ### Inserting the plan -/

/-- The operation with the tail's uses renamed. -/
def Operation.redirect (p q : Nat) (op : Operation A) : Operation A :=
  { op with operands := op.operands.map (replaceAllUsesWith p q) }

section

variable {body : Body A} {t : Nat} {kind : Kind} {operands : List Value} {payload : A}

theorem mem_insertPlan {op : Operation A} (ht : ∃ op ∈ body.ops, op.address = t) :
    op ∈ (insertPlan body t kind operands payload).ops ↔
      op = Operation.redirect t body.next ⟨body.next, kind, operands, payload, false, none⟩ ∨
        ∃ d ∈ body.ops, op = d.redirect t body.next := by
  simp only [insertPlan, List.mem_map, List.mem_flatMap]
  constructor
  · rintro ⟨d, ⟨e, he, hd⟩, rfl⟩
    split at hd
    · simp only [List.mem_cons, List.not_mem_nil, or_false] at hd
      rcases hd with rfl | rfl
      · exact .inl rfl
      · exact .inr ⟨d, he, rfl⟩
    · cases List.mem_singleton.1 hd
      exact .inr ⟨d, he, rfl⟩
  · rintro (rfl | ⟨d, hd, rfl⟩)
    · obtain ⟨e, he, haddress⟩ := ht
      exact ⟨_, ⟨e, he, by rw [if_pos haddress]; exact List.mem_cons_self⟩, rfl⟩
    · refine ⟨d, ⟨d, hd, ?_⟩, rfl⟩
      split
      · simp
      · simp

theorem insertPlan_addresses (ht : ∃ op ∈ body.ops, op.address = t)
    (hnodup : (body.ops.map Operation.address).Nodup)
    (hlt : ∀ op ∈ body.ops, op.address < body.next) :
    ((insertPlan body t kind operands payload).ops.map Operation.address).Nodup := by
  obtain ⟨op, hop, rfl⟩ := ht
  obtain ⟨first, rest, hsplit⟩ := List.append_of_mem hop
  have hnone : ∀ list : List (Operation A), op.address ∉ list.map Operation.address →
      (list.flatMap fun d => if d.address = op.address then
        [⟨body.next, kind, operands, payload, false, none⟩, d] else [d]) = list := by
    intro list hlist
    induction list with
    | nil => rfl
    | cons d list ih =>
        rw [List.map_cons, List.mem_cons, not_or] at hlist
        rw [List.flatMap_cons, ih hlist.2, if_neg (Ne.symm hlist.1)]
        rfl
  rw [hsplit, List.map_append, List.map_cons, List.nodup_append, List.nodup_cons] at hnodup
  obtain ⟨hfirst, ⟨hrestnot, hrest⟩, hdisjoint⟩ := hnodup
  have hfirstnot : op.address ∉ first.map Operation.address := fun hmem =>
    hdisjoint _ hmem _ List.mem_cons_self rfl
  have hops : (insertPlan body op.address kind operands payload).ops.map Operation.address =
      first.map Operation.address ++
        body.next :: op.address :: rest.map Operation.address := by
    simp only [insertPlan, List.map_map]
    rw [hsplit, List.flatMap_append, List.flatMap_cons, hnone first hfirstnot,
      hnone rest hrestnot, if_pos rfl]
    simp [Function.comp_def]
  have hbelow : ∀ p ∈ body.ops.map Operation.address, p ≠ body.next := by
    intro p hp
    obtain ⟨d, hd, rfl⟩ := List.mem_map.1 hp
    exact Nat.ne_of_lt (hlt d hd)
  rw [hsplit, List.map_append, List.map_cons] at hbelow
  rw [hops]
  refine List.nodup_append.2 ⟨hfirst, List.nodup_cons.2 ⟨fun hmem => ?_,
    List.nodup_cons.2 ⟨hrestnot, hrest⟩⟩, fun a ha b hb => ?_⟩
  · exact hbelow _ (List.mem_append_right _ hmem) rfl
  · rcases List.mem_cons.1 hb with rfl | hb
    · exact hbelow a (List.mem_append_left _ ha)
    · exact hdisjoint a ha b hb

end

/-! ### Marking -/

namespace Progress

variable {before body : Body A} {done : List Nat} {plan : Nat → Option Nat}
  (hwf : before.WellFormed) (hprogress : Progress before done plan body)
  {t : Nat} {l : List Nat} (ht : t ∈ before.tails) (hnew : t ∉ done)
  (hl : Collects before.source t l)
include hprogress hnew

theorem plan_new : plan t = none := by
  cases hplan : plan t with
  | none => rfl
  | some n => exact absurd (hprogress.planned t n hplan).1 hnew

include hwf ht hl

theorem typed_iff : (l.any fun p => (body.find p).any fun op => isTypedValueTransformOp op.kind) =
    true ↔ Typed before l := by
  simp only [List.any_eq_true]
  constructor
  · rintro ⟨p, hp, htyped⟩
    obtain ⟨op₀, hop₀, op, hop, rfl, -, hkept, -⟩ := hprogress.chain_mem hwf ht hnew hl hp
    rw [Body.find_eq hprogress.nodup hop hkept.address] at htyped
    refine ⟨op₀, hop₀, hp, ?_⟩
    simpa [hkept.kind] using htyped
  · rintro ⟨op₀, hop₀, hp, htyped⟩
    obtain ⟨op₁, hop₁, op, hop, haddress, -, hkept, -⟩ :=
      hprogress.chain_mem hwf ht hnew hl hp
    cases Body.eq_of_address hwf.nodup hop₁ hop₀ haddress
    refine ⟨op₀.address, hp, ?_⟩
    rw [Body.find_eq hprogress.nodup hop hkept.address]
    simpa [hkept.kind] using htyped

theorem mark (reason : String) :
    Progress before (done ++ [t]) plan (markFallback body l reason) := by
  have hplan := hprogress.plan_new hnew
  have htyped := hprogress.typed_iff hwf ht hnew hl
  generalize htypedeq : (l.any fun p =>
    (body.find p).any fun op => isTypedValueTransformOp op.kind) = typed at htyped
  have hops : ∀ op', op' ∈ (markFallback body l reason).ops ↔ ∃ op ∈ body.ops, op' =
      if op.address ∈ l then
        { op with
          fallback := true
          fallbackReason :=
            if typed && op.fallbackReason.isNone then some reason else op.fallbackReason }
      else op := by
    intro op'
    simp only [markFallback, htypedeq, List.mem_map]
    exact ⟨fun ⟨op, hop, heq⟩ => ⟨op, hop, heq.symm⟩, fun ⟨op, hop, heq⟩ => ⟨op, hop, heq.symm⟩⟩
  have haddresses : (markFallback body l reason).ops.map Operation.address =
      body.ops.map Operation.address := by
    simp only [markFallback, List.map_map]
    refine List.map_congr_left fun op _ => ?_
    simp only [Function.comp_apply]
    split <;> rfl
  constructor
  · exact haddresses ▸ hprogress.nodup
  · intro op' hop'
    obtain ⟨op, hop, rfl⟩ := (hops op').1 hop'
    have hlt := hprogress.address_lt op hop
    split <;> exact hlt
  · exact hprogress.next_le
  · intro s hs
    rcases List.mem_append.1 hs with hs | hs
    · exact hprogress.done_tails s hs
    · exact List.mem_singleton.1 hs ▸ ht
  · intro s n hs
    obtain ⟨hdone, hbounds⟩ := hprogress.planned s n hs
    exact ⟨List.mem_append_left _ hdone, hbounds⟩
  · exact hprogress.alone
  · exact hprogress.single
  · intro s n l' hs hl'
    obtain ⟨op, hop, haddress, hkind, hroot⟩ := hprogress.plans s n l' hs hl'
    refine ⟨_, (hops _).2 ⟨op, hop, rfl⟩, ?_, ?_, ?_⟩
    all_goals split <;> assumption
  · intro op₀ hop₀ hstays
    obtain ⟨op, hop, hkept⟩ := hprogress.kept op₀ hop₀ hstays
    refine ⟨_, (hops _).2 ⟨op, hop, rfl⟩, ?_⟩
    split
    · exact ⟨hkept.address, hkept.kind, hkept.payload, hkept.operands⟩
    · exact hkept
  · intro op' hop'
    obtain ⟨op, hop, rfl⟩ := (hops op').1 hop'
    have hgone := hprogress.gone op hop
    split <;> exact hgone
  · intro op' hop'
    obtain ⟨op, hop, rfl⟩ := (hops op').1 hop'
    have horigin := hprogress.origin op hop
    split <;> exact horigin
  · intro op₀ hop₀ op' hop' haddress
    obtain ⟨op, hop, rfl⟩ := (hops op').1 hop'
    by_cases hmem : op.address ∈ l
    · rw [if_pos hmem]
      exact ⟨fun _ => .inr ⟨t, by simp, hplan, l, hl, hmem⟩, fun _ => rfl⟩
    · rw [if_neg hmem] at haddress ⊢
      refine (hprogress.marks op₀ hop₀ op hop haddress).trans (or_congr_right ?_)
      constructor
      · rintro ⟨s, hs, hrest⟩
        exact ⟨s, List.mem_append_left _ hs, hrest⟩
      · rintro ⟨s, hs, hnone, l', hl', hmem'⟩
        rcases List.mem_append.1 hs with hs | hs
        · exact ⟨s, hs, hnone, l', hl', hmem'⟩
        · rw [List.mem_singleton.1 hs] at hl'
          exact absurd (hl.unique hl' ▸ hmem') hmem
  · intro s hs hnone l' hl' htyped' op' hop' hmem
    obtain ⟨op, hop, rfl⟩ := (hops op').1 hop'
    rcases List.mem_append.1 hs with hs | hs
    · have hold : op.address ∈ l' → op.fallbackReason.isSome = true :=
        hprogress.reasons s hs hnone l' hl' htyped' op hop
      by_cases hin : op.address ∈ l
      · rw [if_pos hin] at hmem ⊢
        dsimp only at hmem ⊢
        split
        · rfl
        · exact hold hmem
      · rw [if_neg hin] at hmem ⊢
        exact hold hmem
    · rw [List.mem_singleton.1 hs] at hl'
      rw [← hl.unique hl'] at htyped' hmem
      have hin : op.address ∈ l := by
        by_cases hin : op.address ∈ l
        · exact hin
        · rwa [if_neg hin] at hmem
      rw [if_pos hin, htyped.2 htyped']
      cases op.fallbackReason <;> simp

/-! ### Folding -/

/-- The members before the tail have their one use in the chain. -/
theorem alone_of_hasOneUse
    (hone : ∀ p ∈ l, p ≠ t → body.hasOneUse (.result p 0) = true) {p : Nat} (hp : p ∈ l)
    (hne : p ≠ t) {op₀ : Operation A} (hop₀ : op₀ ∈ before.ops) (huses : op₀.usesOp p = true) :
    op₀.address ∈ l := by
  have hstays := fun {q} hq => hprogress.chain_stays hwf ht hnew hl (p := q) hq
  -- the member after it uses it as first operand
  obtain ⟨next₀, hnext₀, hnextl, hnextfoldable, hnextv⟩ := hwf.successor ht hl hp hne
  obtain ⟨next₁, hnext₁, next, hnext, haddress₁, -, hnextkept, hnextops⟩ :=
    hprogress.chain_mem hwf ht hnew hl hnextl
  cases Body.eq_of_address hwf.nodup hnext₁ hnext₀ haddress₁
  have hnextmem : .result p 0 ∈ next.operands := hnextops ▸ hnextv
  have hfoldable := hwf.chain_foldable ht hl p hp
  obtain ⟨i, hv⟩ := Operation.usesOp_iff.1 huses
  have hzero := hwf.index_zero hop₀ hv hfoldable
  subst hzero
  have hplan : plan p = none := by
    cases hplan : plan p with
    | none => rfl
    | some n => exact absurd (hprogress.plan_tail hplan) (hwf.not_mem_tails ht hl hp hne)
  by_cases hgone : Gone before plan op₀.address
  · obtain ⟨s, n, l', hs, hl', hmem⟩ := hgone
    obtain ⟨op, hop, -, hkind, root, hroot, hrootmem, hrootnone, hoperands⟩ :=
      hprogress.plans s n l' hs hl'
    cases hsource : before.source op₀.address with
    | none =>
        -- the root of a folded chain: its plan operation uses the member too
        have heq := hl'.root_unique hmem hrootmem hsource hrootnone
        cases Body.eq_of_address hwf.nodup hop₀ hroot heq
        have hsame := eq_of_hasOneUse (hone p hp hne) hop hnext (hoperands ▸ hv) hnextmem
        have hnot := foldable_not_plan hkind
        rw [hsame, Operation.foldable, hnextkept.kind] at hnot
        exact absurd hnextfoldable (by simp [Operation.foldable, hnot])
    | some q =>
        have hlength := hprogress.single s n l' hs hl' op₀ hop₀ hmem (by simp [hsource])
        obtain ⟨d, hd, hdaddress, ⟨j, hhead⟩, -⟩ := Body.source_eq_some hsource
        cases Body.eq_of_address hwf.nodup hd hop₀ hdaddress
        obtain ⟨v, hone'⟩ := List.length_eq_one_iff.1 hlength
        rw [hone', List.mem_singleton] at hv
        rw [hone', ← hv] at hhead
        cases hhead
        exact absurd ⟨s, n, l', hs, hl', hl'.mem_source hmem hsource⟩ (hstays hp)
  · obtain ⟨op, hop, hkept⟩ := hprogress.kept op₀ hop₀ hgone
    have hmem : .result p 0 ∈ op.operands := by
      rw [hkept.operands]
      exact List.mem_map.2 ⟨_, hv, rename_result hplan⟩
    have hsame := eq_of_hasOneUse (hone p hp hne) hop hnext hmem hnextmem
    rw [← hkept.address, hsame, hnextkept.address]
    exact hnextl

end Progress

/-! ### Replacing -/

theorem redirect_eq {p q : Nat} {op : Operation A} (h : op.usesOp p = false) :
    op.redirect p q = op := by
  have hsame : op.operands.map (replaceAllUsesWith p q) = op.operands := by
    rw [List.map_congr_left (g := id), List.map_id]
    intro v hv
    cases v with
    | argument n => rfl
    | result r i =>
        have hne : r ≠ p := by
          rintro rfl
          simp [Operation.usesOp_iff.2 ⟨i, hv⟩] at h
        simp [replaceAllUsesWith, hne]
  rw [Operation.redirect, hsame]

theorem usesOp_redirect {p q r : Nat} {op : Operation A} (hr : r ≠ q)
    (h : (op.redirect p q).usesOp r = true) : r ≠ p ∧ op.usesOp r = true := by
  obtain ⟨i, hv⟩ := Operation.usesOp_iff.1 h
  obtain ⟨v, hv, heq⟩ := List.mem_map.1 hv
  cases v with
  | argument n => cases heq
  | result s j =>
      by_cases hs : s = p
      · rw [replaceAllUsesWith, if_pos hs] at heq
        cases heq
        exact absurd rfl hr
      · rw [replaceAllUsesWith, if_neg hs] at heq
        cases heq
        exact ⟨hs, Operation.usesOp_iff.2 ⟨i, hv⟩⟩

/-- The plan operation of one more tail. -/
def extend (plan : Nat → Option Nat) (t n : Nat) : Nat → Option Nat := fun s =>
  if s = t then some n else plan s

theorem rename_extend {plan : Nat → Option Nat} {t n : Nat} (hnew : plan t = none)
    (hplan : ∀ s m, plan s = some m → m ≠ t) (v : Value) :
    replaceAllUsesWith t n (rename plan v) = rename (extend plan t n) v := by
  cases v with
  | argument k => rfl
  | result s i =>
      by_cases hs : s = t
      · subst hs
        simp [rename, hnew, replaceAllUsesWith, extend]
      · cases hm : plan s with
        | none => simp [rename, hm, replaceAllUsesWith, extend, hs]
        | some m => simp [rename, hm, replaceAllUsesWith, extend, hs, hplan s m hm]

namespace Progress

variable {before body : Body A} {done : List Nat} {plan : Nat → Option Nat}
  (hwf : before.WellFormed) (hprogress : Progress before done plan body)
  {t : Nat} {l : List Nat} (ht : t ∈ before.tails) (hnew : t ∉ done)
  (hl : Collects before.source t l)
include hwf hprogress ht hl

/-- What uses a member of the chain is in the module since the start. -/
theorem user_of_member (hstays : ∀ p ∈ l, ¬ Gone before plan p)
    (halone : ∀ p ∈ l, p ≠ t → ∀ op ∈ before.ops, op.usesOp p = true → op.address ∈ l)
    {p : Nat} (hp : p ∈ l) (hne : p ≠ t) {op : Operation A} (hop : op ∈ body.ops)
    (huses : op.usesOp p = true) :
    ∃ op₀ ∈ before.ops, op₀.address = op.address ∧ op.address ∈ l ∧ op₀.usesOp p = true := by
  obtain ⟨i, hv⟩ := Operation.usesOp_iff.1 huses
  obtain ⟨d, hd, hdaddress, -⟩ := (Body.foldable_iff hwf.nodup).1 (hwf.chain_foldable ht hl p hp)
  have hplt : p < before.next := hdaddress ▸ hwf.address_lt d hd
  rcases hprogress.origin op hop with ⟨op₀, hop₀, haddress⟩ | ⟨-, -, s, hs⟩
  · have hkept := hprogress.kept_of_mem hop hop₀ haddress.symm
    rw [hkept.operands] at hv
    obtain ⟨v, hv, heq⟩ := List.mem_map.1 hv
    have huses₀ : op₀.usesOp p = true := by
      cases v with
      | argument n => cases heq
      | result q j =>
          cases hq : plan q with
          | none =>
              rw [rename_result hq] at heq
              cases heq
              exact Operation.usesOp_iff.2 ⟨i, hv⟩
          | some n =>
              simp only [rename, hq] at heq
              cases heq
              have hle := (hprogress.planned q p hq).2.1
              omega
    exact ⟨op₀, hop₀, haddress, haddress ▸ halone p hp hne op₀ hop₀ huses₀, huses₀⟩
  · -- a plan operation has the operands of a root that is gone
    obtain ⟨rank, hdescends, -⟩ := hwf.descends
    obtain ⟨l', hl'⟩ := hdescends.collects s
    obtain ⟨op', hop', haddress, -, root, hroot, hrootmem, -, hoperands⟩ :=
      hprogress.plans s _ l' hs hl'
    cases Body.eq_of_address hprogress.nodup hop' hop haddress
    have hrootuses : root.usesOp p = true :=
      Operation.usesOp_iff.2 ⟨i, hoperands ▸ hv⟩
    exact absurd ⟨s, _, l', hs, hl', hrootmem⟩ (hstays _ (halone p hp hne root hroot hrootuses))

include hnew

variable {kind : Kind} {operands : List Value} {payload : A} {root : Operation A}

theorem erase_chain (halone : ∀ p ∈ l, p ≠ t →
      ∀ op ∈ before.ops, op.usesOp p = true → op.address ∈ l)
    (hroot : root ∈ before.ops) (hrootmem : root.address ∈ l)
    (hrootnone : before.source root.address = none) (hoperands : operands = root.operands) :
    eraseAll l (insertPlan body t kind operands payload) =
      .ok { insertPlan body t kind operands payload with
        ops := (insertPlan body t kind operands payload).ops.filter fun op =>
          op.address ∉ l } := by
  have hstays : ∀ p ∈ l, ¬ Gone before plan p := fun p hp =>
    hprogress.chain_stays hwf ht hnew hl hp
  obtain ⟨rank, hdescends, hrank⟩ := hwf.descends
  have hpairwise := hdescends.pairwise hl
  obtain ⟨tail₀, htail₀, tail, htail, htaddress, -, htailkept, -⟩ :=
    hprogress.chain_mem hwf ht hnew hl hl.mem_self
  have hmember : ∀ p ∈ l, p < body.next := by
    intro p hp
    obtain ⟨op₀, -, op, hop, haddress, -, hkept, -⟩ := hprogress.chain_mem hwf ht hnew hl hp
    rw [← haddress, ← hkept.address]
    exact hprogress.address_lt op hop
  -- users have a higher rank, and what comes later in the list a lower one
  have hearlier : ∀ pre p post, l = pre ++ p :: post → ∀ op₀ ∈ before.ops, op₀.address ∈ l →
      op₀.usesOp p = true → op₀.address ∈ pre := by
    intro pre p post heq op₀ hop₀ hmem huses
    have hlt := hrank op₀ hop₀ p huses
    rw [heq] at hmem hpairwise
    rcases List.mem_append.1 hmem with hmem | hmem
    · exact hmem
    rcases List.mem_cons.1 hmem with heq | hmem
    · rw [heq] at hlt
      exact absurd hlt (Nat.lt_irrefl _)
    · have hgt := (List.pairwise_cons.1 (List.pairwise_append.1 hpairwise).2.1).1 _ hmem
      omega
  refine eraseAll_eq fun pre p post heq op hop huses => ?_
  have hp : p ∈ l := by simp [heq]
  have hpne : p ≠ body.next := Nat.ne_of_lt (hmember p hp)
  rcases (mem_insertPlan ⟨tail, htail, htailkept.address.trans htaddress⟩).1 hop with
    rfl | ⟨d, hd, rfl⟩
  · obtain ⟨hne, huses⟩ := usesOp_redirect hpne huses
    have hrootuses : root.usesOp p = true := by
      rw [Operation.usesOp, ← hoperands]
      exact huses
    -- the root is the last of the list, so nothing in it is before the root
    obtain ⟨pre', last, hlast, hlastnone⟩ := hl.last
    have hlastmem : last ∈ l := by simp [hlast]
    have hsame := hl.root_unique hlastmem hrootmem hlastnone hrootnone
    have hpre := hearlier pre p post heq root hroot hrootmem hrootuses
    have hlt := hrank root hroot p hrootuses
    have hle : rank root.address ≤ rank p := by
      rw [hlast] at hp hpairwise
      rcases List.mem_append.1 hp with hp | hp
      · exact Nat.le_of_lt (hsame ▸
          (List.pairwise_append.1 hpairwise).2.2 p hp last List.mem_cons_self)
      · rw [List.mem_singleton.1 hp, hsame]
    omega
  · obtain ⟨hne, huses⟩ := usesOp_redirect hpne huses
    obtain ⟨op₀, hop₀, haddress, hmem, huses₀⟩ :=
      hprogress.user_of_member hwf ht hl hstays halone hp hne hd huses
    have hpre := hearlier pre p post heq op₀ hop₀ (haddress ▸ hmem) huses₀
    rwa [haddress] at hpre

/-- The module once the chain has given way to its plan operation. -/
theorem fold (halone : ∀ p ∈ l, p ≠ t →
      ∀ op ∈ before.ops, op.usesOp p = true → op.address ∈ l)
    (hsingle : ∀ op ∈ before.ops, op.address ∈ l → before.source op.address ≠ none →
      op.operands.length = 1)
    (hroot : root ∈ before.ops) (hrootmem : root.address ∈ l)
    (hrootnone : before.source root.address = none) (hoperands : operands = root.operands)
    (hkind : isPlanResultOp kind = true) :
    Progress before (done ++ [t]) (extend plan t body.next)
      { insertPlan body t kind operands payload with
        ops := (insertPlan body t kind operands payload).ops.filter fun op =>
          op.address ∉ l } := by
  have hplan := hprogress.plan_new hnew
  have hmember : ∀ p ∈ l, p < body.next ∧ p < before.next := by
    intro p hp
    obtain ⟨op₀, hop₀, op, hop, haddress, -, hkept, -⟩ :=
      hprogress.chain_mem hwf ht hnew hl hp
    refine ⟨?_, haddress ▸ hwf.address_lt op₀ hop₀⟩
    rw [← haddress, ← hkept.address]
    exact hprogress.address_lt op hop
  obtain ⟨tail₀, htail₀, tail, htail, htaddress, -, htailkept, -⟩ :=
    hprogress.chain_mem hwf ht hnew hl hl.mem_self
  have htailin : ∃ op ∈ body.ops, op.address = t :=
    ⟨tail, htail, htailkept.address.trans htaddress⟩
  have hplans : ∀ s m, plan s = some m → m ≠ t := fun s m hs heq => by
    have hle := (hprogress.planned s m hs).2.1
    have hlt := (hmember t hl.mem_self).2
    omega
  have hextend : ∀ s, s ≠ t → extend plan t body.next s = plan s := fun s hs => if_neg hs
  have hself : extend plan t body.next t = some body.next := if_pos rfl
  have hgone : ∀ p, Gone before (extend plan t body.next) p ↔ Gone before plan p ∨ p ∈ l := by
    intro p
    constructor
    · rintro ⟨s, n, l', hs, hl', hp⟩
      by_cases heq : s = t
      · rw [heq] at hl'
        exact .inr (hl.unique hl' ▸ hp)
      · exact .inl ⟨s, n, l', (hextend s heq) ▸ hs, hl', hp⟩
    · rintro (⟨s, n, l', hs, hl', hp⟩ | hp)
      · refine ⟨s, n, l', ?_, hl', hp⟩
        rw [hextend s fun heq => by simp [heq, hplan] at hs]
        exact hs
      · exact ⟨t, body.next, l, hself, hl, hp⟩
  have hrootuses : root.usesOp t = false := by
    obtain ⟨d, hd, hdaddress, hfoldable⟩ :=
      (Body.foldable_iff hwf.nodup).1 (hwf.chain_foldable ht hl _ hrootmem)
    cases Body.eq_of_address hwf.nodup hd hroot hdaddress
    exact hwf.not_uses_tail ht hd hfoldable
  have hfixed : Operation.redirect t body.next
      (⟨body.next, kind, operands, payload, false, none⟩ : Operation A) =
        ⟨body.next, kind, operands, payload, false, none⟩ := by
    refine redirect_eq ?_
    rw [Operation.usesOp, hoperands]
    exact hrootuses
  have hops : ∀ op', (op' ∈ (insertPlan body t kind operands payload).ops.filter fun op =>
      op.address ∉ l) ↔ op' = ⟨body.next, kind, operands, payload, false, none⟩ ∨
        ∃ op ∈ body.ops, op.address ∉ l ∧ op' = op.redirect t body.next := by
    intro op'
    rw [List.mem_filter, mem_insertPlan htailin, hfixed, decide_eq_true_eq]
    constructor
    · rintro ⟨rfl | ⟨op, hop, rfl⟩, hout⟩
      · exact .inl rfl
      · exact .inr ⟨op, hop, hout, rfl⟩
    · rintro (rfl | ⟨op, hop, hout, rfl⟩)
      · exact ⟨.inl rfl, fun hmem => Nat.lt_irrefl _ (hmember _ hmem).1⟩
      · exact ⟨.inr ⟨op, hop, rfl⟩, hout⟩
  have hkeepplan : ∀ s n l', plan s = some n → Collects before.source s l' → n ∉ l := by
    intro s n l' hs _ hmem
    have hle := (hprogress.planned s n hs).2.1
    have hlt := (hmember n hmem).2
    omega
  constructor
  · exact (insertPlan_addresses htailin hprogress.nodup hprogress.address_lt).sublist
      (List.filter_sublist.map _)
  · intro op' hop'
    rcases (hops op').1 hop' with rfl | ⟨op, hop, -, rfl⟩
    · exact Nat.lt_succ_self _
    · exact Nat.lt_succ_of_lt (hprogress.address_lt op hop)
  · exact Nat.le_succ_of_le hprogress.next_le
  · intro s hs
    rcases List.mem_append.1 hs with hs | hs
    · exact hprogress.done_tails s hs
    · exact List.mem_singleton.1 hs ▸ ht
  · intro s n hs
    by_cases heq : s = t
    · rw [heq, hself] at hs
      cases hs
      exact ⟨by simp [heq], hprogress.next_le, Nat.lt_succ_self _⟩
    · rw [hextend s heq] at hs
      obtain ⟨hdone, hle, hlt⟩ := hprogress.planned s n hs
      exact ⟨List.mem_append_left _ hdone, hle, Nat.lt_succ_of_lt hlt⟩
  · intro s n l' hs hl'
    by_cases heq : s = t
    · rw [heq] at hl' ⊢
      exact hl.unique hl' ▸ halone
    · exact hprogress.alone s n l' (hextend s heq ▸ hs) hl'
  · intro s n l' hs hl'
    by_cases heq : s = t
    · rw [heq] at hl'
      exact hl.unique hl' ▸ hsingle
    · exact hprogress.single s n l' (hextend s heq ▸ hs) hl'
  · intro s n l' hs hl'
    by_cases heq : s = t
    · rw [heq, hself] at hs
      cases hs
      rw [heq] at hl'
      rw [← hl.unique hl']
      exact ⟨_, (hops _).2 (.inl rfl), rfl, hkind, root, hroot, hrootmem, hrootnone, hoperands⟩
    · rw [hextend s heq] at hs
      obtain ⟨op, hop, haddress, hopkind, root', hroot', hmem', hnone', hoperands'⟩ :=
        hprogress.plans s n l' hs hl'
      have hfoldable' : root'.foldable = true := by
        obtain ⟨d, hd, hdaddress, hfoldable⟩ := (Body.foldable_iff hwf.nodup).1
          (hwf.chain_foldable (hprogress.plan_tail hs) hl' _ hmem')
        cases Body.eq_of_address hwf.nodup hd hroot' hdaddress
        exact hfoldable
      have hunused : op.usesOp t = false := by
        rw [Operation.usesOp, hoperands']
        exact hwf.not_uses_tail ht hroot' hfoldable'
      refine ⟨op, (hops _).2 (.inr ⟨op, hop, ?_, (redirect_eq hunused).symm⟩), haddress, hopkind,
        root', hroot', hmem', hnone', hoperands'⟩
      exact haddress ▸ hkeepplan s n l' hs hl'
  · intro op₀ hop₀ hstays
    rw [hgone, not_or] at hstays
    obtain ⟨op, hop, hkept⟩ := hprogress.kept op₀ hop₀ hstays.1
    refine ⟨_, (hops _).2 (.inr ⟨op, hop, hkept.address ▸ hstays.2, rfl⟩), hkept.address,
      hkept.kind, hkept.payload, ?_⟩
    simp only [Operation.redirect, hkept.operands, List.map_map]
    exact List.map_congr_left fun v _ => rename_extend hplan hplans v
  · intro op' hop'
    rw [hgone, not_or]
    rcases (hops op').1 hop' with rfl | ⟨op, hop, hout, rfl⟩
    · refine ⟨?_, fun hmem => Nat.lt_irrefl _ (hmember _ hmem).1⟩
      rintro ⟨s, n, l', hs, hl', hmem⟩
      obtain ⟨d, hd, hdaddress, -⟩ := (Body.foldable_iff hwf.nodup).1
        (hwf.chain_foldable (hprogress.plan_tail hs) hl' _ hmem)
      have hlt := hwf.address_lt d hd
      have hle := hprogress.next_le
      rw [hdaddress] at hlt
      dsimp only at hlt
      omega
    · exact ⟨hprogress.gone op hop, hout⟩
  · intro op' hop'
    rcases (hops op').1 hop' with rfl | ⟨op, hop, -, rfl⟩
    · exact .inr ⟨hprogress.next_le, hkind, t, hself⟩
    · rcases hprogress.origin op hop with hold | ⟨hle, hopkind, s, hs⟩
      · exact .inl hold
      · refine .inr ⟨hle, hopkind, s, ?_⟩
        rw [hextend s fun heq => by simp [heq, hplan] at hs]
        exact hs
  · intro op₀ hop₀ op' hop' haddress
    rcases (hops op').1 hop' with rfl | ⟨op, hop, hout, rfl⟩
    · have hlt := hwf.address_lt op₀ hop₀
      have hle := hprogress.next_le
      rw [← haddress] at hlt
      dsimp only at hlt
      omega
    · refine (hprogress.marks op₀ hop₀ op hop haddress).trans (or_congr_right ?_)
      constructor
      · rintro ⟨s, hs, hnone, hrest⟩
        refine ⟨s, List.mem_append_left _ hs, ?_, hrest⟩
        rw [hextend s fun heq => hnew (heq ▸ hs)]
        exact hnone
      · rintro ⟨s, hs, hnone, hrest⟩
        by_cases heq : s = t
        · rw [heq, hself] at hnone
          cases hnone
        · rw [hextend s heq] at hnone
          rcases List.mem_append.1 hs with hs | hs
          · exact ⟨s, hs, hnone, hrest⟩
          · exact absurd (List.mem_singleton.1 hs) heq
  · intro s hs hnone l' hl' htyped op' hop' hmem
    by_cases heq : s = t
    · rw [heq, hself] at hnone
      cases hnone
    · rw [hextend s heq] at hnone
      have hs : s ∈ done := by
        rcases List.mem_append.1 hs with hs | hs
        · exact hs
        · exact absurd (List.mem_singleton.1 hs) heq
      rcases (hops op').1 hop' with rfl | ⟨op, hop, -, rfl⟩
      · obtain ⟨d, hd, hdaddress, -⟩ := (Body.foldable_iff hwf.nodup).1
          (hwf.chain_foldable (hprogress.done_tails s hs) hl' _ hmem)
        have hlt := hwf.address_lt d hd
        have hle := hprogress.next_le
        rw [hdaddress] at hlt
        dsimp only at hlt
        omega
      · exact hprogress.reasons s hs hnone l' hl' htyped op hop hmem

end Progress

end SymReloc.Fold
