import Mathlib.Data.List.Nodup
import Mathlib.Data.List.Perm.Subperm

/-!
# Walking back

A chain is what one collects from an element by a partial function that names the element
before it.  Where the function decreases a rank, every walk ends, within as many steps as
there are elements to meet.
-/

namespace WalkBack

variable {α : Type} {source source' : α → Option α} {p q : α} {l : List α}

/-- The element and those before it, nearest first; none when the fuel does not last. -/
def collect (source : α → Option α) : Nat → α → Option (List α)
  | 0, _ => none
  | fuel + 1, p =>
      match source p with
      | none => some [p]
      | some q => (collect source fuel q).map (p :: ·)

/-- The list of a walk that has ended. -/
inductive Collects (source : α → Option α) : α → List α → Prop
  | root {p : α} : source p = none → Collects source p [p]
  | step {p q : α} {l : List α} : source p = some q → Collects source q l →
      Collects source p (p :: l)

namespace Collects

theorem collect_eq (h : Collects source p l) {fuel : Nat} (hfuel : l.length ≤ fuel) :
    collect source fuel p = some l := by
  induction h generalizing fuel with
  | root hnone =>
      obtain ⟨fuel, rfl⟩ : ∃ n, fuel = n + 1 := ⟨fuel - 1, by simp at hfuel; omega⟩
      simp [collect, hnone]
  | step hsome _ ih =>
      obtain ⟨fuel, rfl⟩ : ∃ n, fuel = n + 1 := ⟨fuel - 1, by simp at hfuel; omega⟩
      simp [collect, hsome, ih (Nat.le_of_succ_le_succ hfuel)]

theorem unique {l' : List α} (h : Collects source p l) (h' : Collects source p l') : l = l' := by
  have hfuel := h.collect_eq (Nat.le_max_left l.length l'.length)
  have hfuel' := h'.collect_eq (Nat.le_max_right l.length l'.length)
  exact Option.some.inj (hfuel.symm.trans hfuel')

theorem head (h : Collects source p l) : ∃ rest, l = p :: rest := by
  cases h with
  | root => exact ⟨[], rfl⟩
  | step => exact ⟨_, rfl⟩

theorem mem_self (h : Collects source p l) : p ∈ l := by
  obtain ⟨rest, rfl⟩ := h.head
  exact List.mem_cons_self

/-- What comes before a member is a member. -/
theorem mem_source {m : α} (h : Collects source p l) (hm : m ∈ l) (hsource : source m = some q) :
    q ∈ l := by
  induction h with
  | root hnone =>
      rw [List.mem_singleton.1 hm, hnone] at hsource
      cases hsource
  | step hsome hrest ih =>
      rcases List.mem_cons.1 hm with rfl | hm
      · cases hsome.symm.trans hsource
        exact List.mem_cons_of_mem _ hrest.mem_self
      · exact List.mem_cons_of_mem _ (ih hm)

/-- Every member but the first comes right before another one. -/
theorem split {m : α} (h : Collects source p l) (hm : m ∈ l) (hne : m ≠ p) :
    ∃ before s after, l = before ++ s :: m :: after ∧ source s = some m := by
  induction h with
  | root => exact absurd (List.mem_singleton.1 hm) hne
  | @step p q l hsome hrest ih =>
      rcases List.mem_cons.1 hm with rfl | hm
      · exact absurd rfl hne
      by_cases hq : m = q
      · subst hq
        obtain ⟨rest, rfl⟩ := hrest.head
        exact ⟨[], p, rest, rfl, hsome⟩
      · obtain ⟨before, s, after, rfl, hs⟩ := ih hm hq
        exact ⟨p :: before, s, after, rfl, hs⟩

/-- A property of the first element that passes to what comes before holds of all. -/
theorem forall_mem {P : α → Prop} (h : Collects source p l) (hp : P p)
    (hstep : ∀ q r, P q → source q = some r → P r) : ∀ m ∈ l, P m := by
  induction h with
  | root =>
      intro m hm
      rw [List.mem_singleton.1 hm]
      exact hp
  | step hsome _ ih =>
      intro m hm
      rcases List.mem_cons.1 hm with rfl | hm
      · exact hp
      · exact ih (hstep _ _ hp hsome) m hm

/-- The last element has nothing before it. -/
theorem last (h : Collects source p l) : ∃ before root, l = before ++ [root] ∧
    source root = none := by
  induction h with
  | root hnone => exact ⟨[], _, rfl, hnone⟩
  | step hsome _ ih =>
      obtain ⟨before, root, rfl, hnone⟩ := ih
      exact ⟨_ :: before, root, rfl, hnone⟩

/-- Only the last element has nothing before it. -/
theorem root_unique {m r : α} (h : Collects source p l) (hm : m ∈ l) (hr : r ∈ l)
    (hmnone : source m = none) (hrnone : source r = none) : m = r := by
  induction h with
  | root => exact (List.mem_singleton.1 hm).trans (List.mem_singleton.1 hr).symm
  | step hsome _ ih =>
      rcases List.mem_cons.1 hm with rfl | hm
      · simp [hsome] at hmnone
      rcases List.mem_cons.1 hr with rfl | hr
      · simp [hsome] at hrnone
      exact ih hm hr

/-- A walk depends on the function at its members only. -/
theorem congr (h : Collects source p l) (heq : ∀ m ∈ l, source' m = source m) :
    Collects source' p l := by
  induction h with
  | root hnone => exact .root ((heq _ List.mem_cons_self).trans hnone)
  | step hsome _ ih =>
      exact .step ((heq _ List.mem_cons_self).trans hsome)
        (ih fun m hm => heq m (List.mem_cons_of_mem _ hm))

end Collects

/-! ### Walks that end -/

variable {rank : α → Nat}

/-- The function goes down in rank. -/
def Descends (source : α → Option α) (rank : α → Nat) : Prop :=
  ∀ p q, source p = some q → rank q < rank p

theorem Descends.collects (hdescends : Descends source rank) (p : α) :
    ∃ l, Collects source p l := by
  induction hp : rank p using Nat.strongRecOn generalizing p with
  | ind n ih =>
      cases hsource : source p with
      | none => exact ⟨[p], .root hsource⟩
      | some q =>
          have hlt : rank q < n := hp ▸ hdescends p q hsource
          obtain ⟨l, hl⟩ := ih (rank q) hlt q rfl
          exact ⟨p :: l, .step hsource hl⟩

theorem Descends.rank_le (hdescends : Descends source rank) (h : Collects source p l) :
    ∀ m ∈ l, rank m ≤ rank p :=
  h.forall_mem (Nat.le_refl _) fun q r hq hsource =>
    Nat.le_trans (Nat.le_of_lt (hdescends q r hsource)) hq

theorem Descends.pairwise (hdescends : Descends source rank) (h : Collects source p l) :
    l.Pairwise fun q r => rank r < rank q := by
  induction h with
  | root => exact List.pairwise_singleton _ _
  | step hsome hrest ih =>
      refine List.pairwise_cons.2 ⟨fun m hm => ?_, ih⟩
      exact Nat.lt_of_le_of_lt (hdescends.rank_le hrest m hm) (hdescends _ _ hsome)

theorem Descends.nodup (hdescends : Descends source rank) (h : Collects source p l) :
    l.Nodup :=
  (hdescends.pairwise h).imp fun hlt heq => by simp [heq] at hlt

end WalkBack
