import Mathlib.Data.List.Nodup
import SymReloc.Dispatch.Engine

/-!
# The lifecycle of submitted groups

Until the work of a group is known to be done, the engine holds its context with the
scratch and the owners of the group, and nothing else runs on it.  Every call that could
touch the context finishes the pending group first, and finds it through the state that
its handle keeps alive; so the argument needs that a handle does not go while its group
is pending without the group being finished.
-/

namespace SymReloc.Dispatch

open Cache

/-! ### The invariant -/

/-- The context keeps the owners and the scratch of a group. -/
def Context.Keeps (c : Context) (g : Nat) (s : Submission) : Prop :=
  c.owners = some (.group g) ∧ ∀ p ∈ s.blocks, c.backend.Holds s.user p

/-- A group whose work may still be running. -/
structure Submission.Open (s : Submission) : Prop where
  alive : s.alive = true
  owners : s.owners = true
  lease : s.lease = .absent ∨ s.lease = .held
  host : s.host.Nodup
  error : s.error = none
  executed : s.executed = false
  ran : s.ran = []
  fate : s.fate = .running

/-- A group that is finished. -/
structure Submission.Done (s : Submission) : Prop where
  fate : s.fate ≠ .running
  executed : s.executed = true ↔ s.error = none
  ran : s.ran.Nodup
  waited : s.ran ≠ [] ∨ s.executed = true → s.waited = true
  returned : s.alive = false → s.lease ≠ .held

structure Invariant (e : Engine) : Prop where
  sound : e.fault = false
  submissions : ∀ g s, e.submissions[g]? = some s →
    (s.complete = false → s.Open ∧ e.pending = some g ∧ ∃ c, e.context = some c ∧ c.Keeps g s) ∧
    (s.complete = true → s.Done)
  retained : ∀ g s, e.submissions[g]? = some s → s.fate = .quarantined →
    ∃ c ∈ e.quarantine, c.Keeps g s

/-- No group is unfinished. -/
def Engine.Settled (e : Engine) : Prop :=
  ∀ (g : Nat) (s : Submission), e.submissions[g]? = some s → s.complete = true

theorem Invariant.start : Invariant .start where
  sound := rfl
  submissions := by simp [Engine.start]
  retained := by simp [Engine.start]

/-! ### Finishing -/

theorem runHost_spec (hostError : Nat → Option TransferError) {ran host : List Nat}
    (h : (ran ++ host).Nodup) : (Engine.runHost hostError ran host).1.Nodup := by
  induction host generalizing ran with
  | nil => simpa [Engine.runHost] using h
  | cons k rest ih =>
    have hone : (ran ++ [k]).Nodup := h.sublist (by simp)
    unfold Engine.runHost
    split
    · exact hone
    · exact ih (by simpa using h)

theorem settle_spec {c : Context} {s : Submission} (failed : Bool) (a : Answers)
    (hopen : s.Open) :
    (Engine.settle c s failed a).1.Nodup ∧
      ((Engine.settle c s failed a).1 ≠ [] ∨ (Engine.settle c s failed a).2 = none →
        (c.backend.failed || failed || a.waitFails) = false) := by
  unfold Engine.settle
  split
  · refine ⟨by simp [hopen.ran], fun h => ?_⟩
    simp [hopen.ran] at h
  · rename_i hwait
    refine ⟨runHost_spec _ (by simpa [hopen.ran] using hopen.host), fun _ => by simpa using hwait⟩

theorem getElem?_setSubmission (e : Engine) (g h : Nat) (s t : Submission)
    (hget : (e.setSubmission g s).submissions[h]? = some t) :
    (h = g ∧ t = s) ∨ (h ≠ g ∧ e.submissions[h]? = some t) := by
  simp only [Engine.setSubmission, List.getElem?_set] at hget
  split at hget
  · rename_i heq
    split at hget
    · cases hget
      exact .inl ⟨heq.symm, rfl⟩
    · cases hget
  · rename_i hne
    exact .inr ⟨fun heq => hne heq.symm, hget⟩

/-- A pending group that is finished, one way or the other: its context is gone or free,
    or it is in quarantine with the group's owners and scratch. -/
theorem Invariant.finish {e e' : Engine} {g : Nat} {s s' : Submission} (h : Invariant e)
    (hget : e.submissions[g]? = some s) (hpending : s.complete = false)
    (hfault : e'.fault = e.fault)
    (hsubmissions : e'.submissions = e.submissions.set g s')
    (hkeep : ∀ c ∈ e.quarantine, c ∈ e'.quarantine)
    (hcomplete : s'.complete = true) (hdone : s'.Done)
    (hretained : s'.fate = .quarantined → ∃ c ∈ e'.quarantine, c.Keeps g s') :
    Invariant e' ∧ e'.Settled := by
  have heach : ∀ k t, e'.submissions[k]? = some t →
      (k = g ∧ t = s') ∨ (k ≠ g ∧ e.submissions[k]? = some t) := by
    intro k t hk
    rw [hsubmissions] at hk
    exact getElem?_setSubmission e g k s' t hk
  have hothers : ∀ k t, k ≠ g → e.submissions[k]? = some t → t.complete = true := by
    intro k t hne hk
    cases hc : t.complete with
    | true => rfl
    | false =>
      obtain ⟨-, hp, -⟩ := (h.submissions g s hget).1 hpending
      obtain ⟨-, hp', -⟩ := (h.submissions k t hk).1 hc
      exact absurd (Option.some.inj (hp'.symm.trans hp)) hne
  have hsettled : e'.Settled := by
    intro k t hk
    rcases heach k t hk with ⟨-, rfl⟩ | ⟨hne, hk⟩
    · exact hcomplete
    · exact hothers k t hne hk
  refine ⟨⟨hfault.trans h.sound, fun k t hk => ⟨fun hc => ?_, fun _ => ?_⟩,
    fun k t hk hfate => ?_⟩, hsettled⟩
  · simp [hsettled k t hk] at hc
  · rcases heach k t hk with ⟨-, rfl⟩ | ⟨hne, hk⟩
    · exact hdone
    · exact (h.submissions k t hk).2 (hothers k t hne hk)
  · rcases heach k t hk with ⟨rfl, rfl⟩ | ⟨-, hk⟩
    · exact hretained hfate
    · obtain ⟨c, hc, hkeeps⟩ := h.retained k t hk hfate
      exact ⟨c, hkeep c hc, hkeeps⟩

theorem Invariant.conclude {e : Engine} {g : Nat} {s : Submission} {c : Context} (failed : Bool)
    (a : Answers) (h : Invariant e) (hget : e.submissions[g]? = some s)
    (hpending : s.complete = false) (hkeeps : c.Keeps g s) :
    Invariant (e.conclude g s c failed a) ∧ (e.conclude g s c failed a).Settled := by
  obtain ⟨hopen, -⟩ := (h.submissions g s hget).1 hpending
  obtain ⟨hnodup, hwaited⟩ := settle_spec (c := c) failed a hopen
  have hdone : ∀ error completion fate, fate ≠ .running →
      (error = none → (Engine.settle c s failed a).2 = none) →
      (Engine.Submission.finished s (Engine.settle c s failed a).1
        (!(c.backend.failed || failed || a.waitFails)) error completion fate).Done := by
    intro error completion fate hfate herror
    refine ⟨hfate, by simp [Engine.Submission.finished], hnodup, fun hran => ?_, fun halive => ?_⟩
    · simp only [Engine.Submission.finished, Bool.not_eq_true']
      refine hwaited (hran.imp id fun hexecuted => herror ?_)
      simpa [Engine.Submission.finished] using hexecuted
    · simp [Engine.Submission.finished, hopen.alive] at halive
  unfold Engine.conclude
  dsimp only
  split
  · refine h.finish hget hpending rfl rfl (fun _ hc => List.mem_append_left _ hc) rfl
      (hdone _ _ _ (by decide) (by simp)) fun _ => ?_
    exact ⟨c, List.mem_append_right _ (List.mem_singleton_self _), hkeeps⟩
  · split
    · exact h.finish hget hpending rfl rfl (fun _ hc => hc) rfl
        (hdone _ _ _ (by decide) id) (fun hfate => by cases hfate)
    · rename_i hnone
      have hnone : (Engine.settle c s failed a).2 = none := by simpa using hnone
      split
      · exact h.finish hget hpending rfl rfl (fun _ hc => hc) rfl
          (hdone _ _ _ (by decide) fun _ => hnone) (fun hfate => by cases hfate)
      · exact h.finish hget hpending rfl rfl (fun _ hc => hc) rfl
          (hdone _ _ _ (by decide) fun _ => hnone) (fun hfate => by cases hfate)

/-- `finishLocked` keeps the invariant; when it says that the group is done, it is. -/
theorem Invariant.finishLocked {e : Engine} (h : Invariant e) (g : Nat) (wait : Bool)
    (a : Answers) :
    Invariant (e.finishLocked g wait a).1 ∧
      ((e.finishLocked g wait a).2 = true → ∀ s,
        (e.finishLocked g wait a).1.submissions[g]? = some s → s.complete = true) ∧
      (wait = true → (e.finishLocked g wait a).2 = true) ∧
      (e.pending = some g → wait = true → e.submissions[g]? ≠ none →
        (e.finishLocked g wait a).1.Settled) := by
  have hsettled : ∀ s, e.submissions[g]? = some s → s.complete = true → e.pending = some g →
      e.Settled := by
    intro s hget hcomplete hpending k t hk
    cases hc : t.complete with
    | true => rfl
    | false =>
      obtain ⟨-, hp, -⟩ := (h.submissions k t hk).1 hc
      have heq : g = k := Option.some.inj (hpending.symm.trans hp)
      subst heq
      rw [Option.some.inj (hk.symm.trans hget)] at hc
      simp [hcomplete] at hc
  unfold Engine.finishLocked
  cases hget : e.submissions[g]? with
  | none =>
    exact ⟨h, fun _ s hs => by simp [hget] at hs, fun _ => rfl, fun _ _ hne => absurd rfl hne⟩
  | some s =>
    by_cases hcomplete : s.complete = true
    · simp only [hcomplete, if_true]
      refine ⟨h, fun _ t ht => ?_, by simp, fun hp _ _ => hsettled s hget hcomplete hp⟩
      rw [Option.some.inj (ht.symm.trans hget)]
      exact hcomplete
    · have hpending : s.complete = false := by simpa using hcomplete
      obtain ⟨-, -, c, hcontext, hkeeps⟩ := (h.submissions g s hget).1 hpending
      simp only [hpending, Bool.false_eq_true, if_false, hcontext]
      split
      · rename_i hbusy
        refine ⟨h, by simp, fun hw => by simp [hw] at hbusy, fun _ hw _ => by simp [hw] at hbusy⟩
      · obtain ⟨hinv, hsettles⟩ := Invariant.conclude (!wait && a.queryFails) a h hget
          hpending hkeeps
        exact ⟨hinv, fun _ t ht => hsettles g t ht, fun _ => rfl, fun _ _ _ => hsettles⟩

/-- Finishing what is pending leaves nothing unfinished. -/
theorem Invariant.finishPending {e : Engine} {a : Answers} (h : Invariant e) :
    Invariant (e.finishPending a).1 ∧ (e.finishPending a).1.Settled := by
  have hnobody : (∀ g s, e.submissions[g]? = some s → e.pending ≠ some g ∨ s.alive = false) →
      e.Settled := by
    intro hdead g s hget
    cases hc : s.complete with
    | true => rfl
    | false =>
      obtain ⟨hopen, hp, -⟩ := (h.submissions g s hget).1 hc
      rcases hdead g s hget with hne | halive
      · exact absurd hp hne
      · simp [hopen.alive] at halive
  unfold Engine.finishPending
  cases hp : e.pending with
  | none => exact ⟨h, hnobody fun g s _ => .inl (by simp [hp])⟩
  | some g =>
    dsimp only
    cases hget : e.submissions[g]? with
    | none =>
      refine ⟨h, hnobody fun k s hk => .inl fun heq => ?_⟩
      rw [hp] at heq
      cases heq
      simp [hget] at hk
    | some s =>
      by_cases halive : s.alive = true
      · simp only [halive, if_true]
        obtain ⟨hinv, -, -, hsettled⟩ := h.finishLocked g true a
        exact ⟨hinv, hsettled hp rfl (by simp [hget])⟩
      · simp only [halive, Bool.false_eq_true, if_false]
        refine ⟨h, hnobody fun k t hk => ?_⟩
        by_cases heq : e.pending = some k
        · rw [hp] at heq
          cases heq
          rw [Option.some.inj (hk.symm.trans hget)]
          exact .inr (by simpa using halive)
        · exact .inl heq

/-! ### Leases and handles -/

/-- Change what the invariant does not depend on. -/
theorem Invariant.setSubmission {e : Engine} {g : Nat} {s s' : Submission} (h : Invariant e)
    (hget : e.submissions[g]? = some s) (hcomplete : s'.complete = s.complete)
    (hopen : s.complete = false → s.Open → s'.Open) (hdone : s.complete = true → s.Done → s'.Done)
    (hfate : s'.fate = s.fate) (huser : s'.user = s.user) (hblocks : s'.blocks = s.blocks) :
    Invariant (e.setSubmission g s') := by
  have hkeeps : ∀ c : Context, c.Keeps g s → c.Keeps g s' := by
    intro c hc
    exact ⟨hc.1, by rw [huser, hblocks]; exact hc.2⟩
  refine ⟨h.sound, fun k t hk => ?_, fun k t hk hq => ?_⟩
  · rcases getElem?_setSubmission e g k s' t hk with ⟨rfl, rfl⟩ | ⟨-, hk⟩
    · refine ⟨fun hc => ?_, fun hc => ?_⟩
      · rw [hcomplete] at hc
        obtain ⟨ho, hp, c, hcontext, hk⟩ := (h.submissions k s hget).1 hc
        exact ⟨hopen hc ho, hp, c, hcontext, hkeeps c hk⟩
      · rw [hcomplete] at hc
        exact hdone hc ((h.submissions k s hget).2 hc)
    · exact h.submissions k t hk
  · rcases getElem?_setSubmission e g k s' t hk with ⟨rfl, rfl⟩ | ⟨-, hk⟩
    · obtain ⟨c, hc, hk⟩ := h.retained k s hget (hfate.symm.trans hq)
      exact ⟨c, hc, hkeeps c hk⟩
    · exact h.retained k t hk hq

/-- The lease of a finished group may be taken. -/
theorem Invariant.takeLease {e : Engine} {g : Nat} (h : Invariant e)
    (hdone : ∀ s, e.submissions[g]? = some s → s.complete = true) :
    Invariant (e.takeLease g) := by
  unfold Engine.takeLease
  cases hget : e.submissions[g]? with
  | none => exact h
  | some s =>
    refine h.setSubmission hget rfl (fun hc => ?_) (fun _ hd => ?_) rfl rfl rfl
    · simp [hdone s hget] at hc
    · refine ⟨hd.fate, hd.executed, hd.ran, hd.waited, fun _ hheld => ?_⟩
      dsimp only at hheld
      split at hheld
      · cases hheld
      · exact absurd hheld ‹_›

theorem Invariant.giveLease {e : Engine} {g : Nat} (h : Invariant e) :
    Invariant (e.giveLease g) := by
  unfold Engine.giveLease
  cases hget : e.submissions[g]? with
  | none => exact h
  | some s =>
    refine h.setSubmission hget rfl (fun _ ho => ?_) (fun _ hd => ?_) rfl rfl rfl
    · refine ⟨ho.alive, ho.owners, ?_, ho.host, ho.error, ho.executed, ho.ran, ho.fate⟩
      rcases ho.lease with habsent | hheld
      · simp [habsent]
      · simp [hheld]
    · refine ⟨hd.fate, hd.executed, hd.ran, hd.waited, fun halive hheld => ?_⟩
      dsimp only at hheld
      split at hheld
      · cases hheld
      · exact hd.returned halive hheld

theorem Invariant.wait {e : Engine} (h : Invariant e) (g : Nat) (inCallback : Bool)
    (a : Answers) : Invariant (e.wait g inCallback a) := by
  unfold Engine.wait
  split
  · exact h
  · obtain ⟨hinv, hdone, htrue, -⟩ := h.finishLocked g true a
    exact hinv.takeLease (hdone (htrue rfl))

theorem Invariant.query {e : Engine} {g : Nat} {inCallback : Bool} {a : Answers}
    (h : Invariant e) : Invariant (e.query g inCallback a) := by
  obtain ⟨hinv, hdone, -, -⟩ := h.finishLocked g false a
  unfold Engine.query
  split
  · exact h
  · split
    · rename_i heq
      rw [heq] at hinv hdone
      exact hinv.takeLease (hdone rfl)
    · rename_i heq
      rw [heq] at hinv
      exact hinv

theorem Invariant.waitStream {e : Engine} {g : Nat} {inCallback ordered : Bool}
    (h : Invariant e) : Invariant (e.waitStream g inCallback ordered) := by
  unfold Engine.waitStream
  split
  · exact h
  · cases hget : e.submissions[g]? with
    | none => exact h
    | some s =>
      dsimp only
      split
      · exact h
      · rename_i hpending
        have hpending : s.complete = false := by
          cases hc : s.complete with
          | false => rfl
          | true => simp [hc] at hpending
        obtain ⟨-, hp, c, hcontext, hkeeps⟩ := (h.submissions g s hget).1 hpending
        rw [hcontext]
        dsimp only
        split
        · exact h
        · refine ⟨h.sound, fun k t hk => ⟨fun hc => ?_, (h.submissions k t hk).2⟩, h.retained⟩
          obtain ⟨ho, hp', c', hcontext', hk'⟩ := (h.submissions k t hk).1 hc
          rw [hcontext] at hcontext'
          cases hcontext'
          exact ⟨ho, hp', _, rfl, hk'.1, hk'.2⟩

/-- The state of a finished group may go with its handle. -/
theorem Invariant.drop {e : Engine} {g : Nat} (h : Invariant e)
    (hdone : ∀ s, e.submissions[g]? = some s → s.complete = true) : Invariant (e.drop g) := by
  have htaken := h.takeLease hdone
  unfold Engine.drop
  cases hget : (e.takeLease g).submissions[g]? with
  | none => exact h
  | some s =>
    have hlease : s.complete = true ∧ s.lease ≠ .held := by
      unfold Engine.takeLease at hget
      cases hold : e.submissions[g]? with
      | none => simp [hold] at hget
      | some t =>
        rw [hold] at hget
        rcases getElem?_setSubmission e g g _ s hget with ⟨-, rfl⟩ | ⟨hne, -⟩
        · refine ⟨hdone t hold, fun hheld => ?_⟩
          dsimp only at hheld
          split at hheld
          · cases hheld
          · exact absurd hheld ‹_›
        · exact absurd rfl hne
    refine htaken.setSubmission hget rfl (fun hc => ?_) (fun _ hd => ?_) rfl rfl rfl
    · simp [hlease.1] at hc
    · exact ⟨hd.fate, hd.executed, hd.ran, hd.waited, fun _ => hlease.2⟩

/-- A handle that goes outside a callback, or whose group is finished. -/
theorem Invariant.destroy {e : Engine} {g : Nat} {inCallback : Bool} {a : Answers}
    (h : Invariant e) (houtside : inCallback = true →
      ∀ s, e.submissions[g]? = some s → s.complete = true) :
    Invariant (e.destroy g inCallback a) := by
  unfold Engine.destroy
  refine (h.wait g inCallback a).drop fun s hs => ?_
  unfold Engine.wait at hs
  split at hs
  · exact houtside ‹_› s hs
  · obtain ⟨-, hdone, htrue, -⟩ := h.finishLocked g true a
    unfold Engine.takeLease at hs
    cases hget : (e.finishLocked g true a).1.submissions[g]? with
    | none => simp [hget] at hs
    | some t =>
      rw [hget] at hs
      rcases getElem?_setSubmission _ g g _ s hs with ⟨-, rfl⟩ | ⟨hne, -⟩
      · exact hdone (htrue rfl) t hget
      · exact absurd rfl hne

/-! ### Executing -/

/-- With nothing unfinished the context is free. -/
theorem Invariant.ofSettled {e e' : Engine} (h : Invariant e) (hsettled : e.Settled)
    (hfault : e'.fault = e.fault) (hsubmissions : e'.submissions = e.submissions)
    (hkeep : ∀ c ∈ e.quarantine, c ∈ e'.quarantine) : Invariant e' where
  sound := hfault.trans h.sound
  submissions := by
    intro g s hget
    rw [hsubmissions] at hget
    exact ⟨fun hc => by simp [hsettled g s hget] at hc, (h.submissions g s hget).2⟩
  retained := by
    intro g s hget hq
    rw [hsubmissions] at hget
    obtain ⟨c, hc, hk⟩ := h.retained g s hget hq
    exact ⟨c, hkeep c hc, hk⟩

theorem Invariant.dismiss {e e' : Engine} {c : Context} {w : Work} (h : Invariant e)
    (hsettled : e.Settled) (hfault : e'.fault = e.fault)
    (hsubmissions : e'.submissions = e.submissions) (hsame : e'.quarantine = e.quarantine) :
    Invariant (e'.dismiss c w) := by
  unfold Engine.dismiss
  split
  · exact h.ofSettled hsettled hfault hsubmissions fun d hd => by rw [← hsame] at hd; exact hd
  · refine h.ofSettled hsettled hfault hsubmissions fun d hd => ?_
    rw [← hsame] at hd
    exact List.mem_append_left _ hd

theorem Invariant.execute {e : Engine} {limits : Limits} {w : Work} {a : Answers}
    (h : Invariant e) : Invariant (e.execute limits w a) := by
  obtain ⟨hinv, hsettled⟩ := h.finishPending (a := a)
  unfold Engine.execute
  split
  · exact h
  · dsimp only
    split
    · exact hinv
    · split
      · exact hinv.ofSettled hsettled rfl rfl fun _ hc => hc
      · split
        · exact hinv.dismiss hsettled rfl rfl rfl
        · split
          · exact hinv.ofSettled hsettled rfl rfl fun _ hc => hc
          · exact hinv.ofSettled hsettled rfl rfl fun _ hc => hc

theorem holds_allocateAll {user : Nat} {allocations : List (Nat × Bool × Option Nat)}
    {s : ScratchBackend} :
    (∀ v p, s.Holds v p → (allocateAll user s allocations).1.Holds v p) ∧
      ∀ p ∈ (allocateAll user s allocations).2,
        (allocateAll user s allocations).1.Holds user p := by
  induction allocations generalizing s with
  | nil => exact ⟨fun _ _ h => h, by simp [allocateAll]⟩
  | cons allocation rest ih =>
    obtain ⟨bytes, device, answer⟩ := allocation
    have hold : ∀ v p, s.Holds v p → (s.allocate user bytes device answer).1.Holds v p :=
      fun v p h => h.allocate user bytes device answer
    have hnew : ∀ p, (s.allocate user bytes device answer).2 = some p →
        (s.allocate user bytes device answer).1.Holds user p :=
      fun p hp => ScratchBackend.holds_allocate hp
    unfold allocateAll
    split
    · rename_i s' heq
      rw [heq] at hold
      exact ⟨fun v p h => ih.1 v p (hold v p h), ih.2⟩
    · rename_i s' pointer heq
      rw [heq] at hold hnew
      refine ⟨fun v p h => ih.1 v p (hold v p h), fun p hp => ?_⟩
      rcases List.mem_cons.mp hp with hfirst | hlater
      · rw [hfirst]
        exact ih.1 user pointer (hnew pointer rfl)
      · exact ih.2 p hlater

/-- The context of a launch keeps the owners and the scratch of its work. -/
theorem keeps_launch {e : Engine} {c : Context} {w : Work} {g : Nat} {s : Submission}
    (huser : s.user = e.clock) (hblocks : s.blocks = (e.launch c (.group g) w).2) :
    (e.launch c (.group g) w).1.Keeps g s := by
  refine ⟨rfl, fun p hp => ?_⟩
  rw [hblocks] at hp
  rw [huser]
  exact holds_allocateAll.2 p hp

theorem Invariant.submit {e : Engine} {limits : Limits} {w : Work} {leased : Bool} {a : Answers}
    (h : Invariant e) : Invariant (e.submit limits w leased a) := by
  obtain ⟨hinv, hsettled⟩ := h.finishPending (a := a)
  unfold Engine.submit
  split
  · exact h
  · dsimp only
    split
    · exact hinv
    · split
      · exact hinv.ofSettled hsettled rfl rfl fun _ hc => hc
      · rename_i c hc
        split
        · exact hinv.dismiss hsettled rfl rfl rfl
        · have heach : ∀ (k : Nat) (t new : Submission),
              ((e.finishPending a).1.submissions ++ [new])[k]? = some t →
              (k = (e.finishPending a).1.submissions.length ∧ t = new) ∨
                (e.finishPending a).1.submissions[k]? = some t := by
            intro k t new hk
            rw [List.getElem?_append] at hk
            split at hk
            · exact .inr hk
            · rename_i hlt
              rw [List.getElem?_singleton] at hk
              split at hk
              · cases hk
                exact .inl ⟨by omega, rfl⟩
              · cases hk
          refine ⟨hinv.sound, fun k t hk => ?_, fun k t hk hq => ?_⟩
          · rcases heach k t _ hk with ⟨rfl, rfl⟩ | hk
            · refine ⟨fun _ => ⟨?_, rfl, _, rfl, keeps_launch rfl rfl⟩, fun hc => by cases hc⟩
              exact ⟨rfl, rfl, by cases leased <;> simp, List.nodup_range, rfl, rfl, rfl, rfl⟩
            · exact ⟨fun hc => by simp [hsettled k t hk] at hc, (hinv.submissions k t hk).2⟩
          · rcases heach k t _ hk with ⟨rfl, rfl⟩ | hk
            · cases hq
            · exact hinv.retained k t hk hq

/-! ### Maintenance -/

theorem Invariant.clear {e : Engine} {inCallback : Bool} {a : Answers} (h : Invariant e) :
    Invariant (e.clear inCallback a) := by
  obtain ⟨hinv, hsettled⟩ := h.finishPending (a := a)
  unfold Engine.clear
  split
  · exact h
  · split
    · rename_i heq
      rw [heq] at hinv
      exact hinv
    · rename_i heq
      rw [heq] at hinv hsettled
      exact hinv.ofSettled hsettled rfl rfl fun _ hc => hc

theorem Invariant.close {e : Engine} {inCallback : Bool} {a : Answers} (h : Invariant e) :
    Invariant (e.close inCallback a) := by
  have hclosed : Invariant { e with closed := true } := ⟨h.sound, h.submissions, h.retained⟩
  obtain ⟨hinv, hsettled⟩ := hclosed.finishPending (a := a)
  unfold Engine.close
  split
  · exact h
  · dsimp only
    split
    · exact hclosed
    · split
      · rename_i heq
        rw [heq] at hinv
        exact hinv
      · rename_i heq
        rw [heq] at hinv hsettled
        exact hinv.ofSettled hsettled rfl rfl fun _ hc => hc

/-! ### All calls -/

/-- No handle of a pending group goes on a thread that is inside a gather callback. -/
def DropsOutside (e : Engine) : Action → Prop
  | .destroy g inCallback _ => inCallback = true →
      ∀ s, e.submissions[g]? = some s → s.complete = true
  | _ => True

theorem Invariant.step {limits : Limits} {e e' : Engine} {a : Action} (h : Invariant e)
    (houtside : DropsOutside e a) (hstep : Dispatch.step limits e a = some e') :
    Invariant e' := by
  cases a with
  | execute w a =>
    cases hstep
    exact h.execute
  | submit w leased a =>
    cases hstep
    exact h.submit
  | wait g inCallback a =>
    simp only [Dispatch.step] at hstep
    split at hstep <;> cases hstep
    exact h.wait g inCallback a
  | query g inCallback a =>
    simp only [Dispatch.step] at hstep
    split at hstep <;> cases hstep
    exact h.query
  | waitStream g inCallback ordered =>
    simp only [Dispatch.step] at hstep
    split at hstep <;> cases hstep
    exact h.waitStream
  | destroy g inCallback a =>
    simp only [Dispatch.step] at hstep
    split at hstep <;> cases hstep
    exact h.destroy houtside
  | giveLease g =>
    cases hstep
    exact h.giveLease
  | clear inCallback a =>
    cases hstep
    exact h.clear
  | close inCallback a =>
    cases hstep
    exact h.close

/-- What must hold of an engine at every moment: no call misses the context of a pending
    group, one group runs at a time, its owners and scratch are the context's until its
    work is known to be done or in quarantine, host completions run at most once and after
    the event, items are executed if the group ended without an error, and a lease goes
    back after the end and with the last handle. -/
structure Engine.Lifecycle (e : Engine) : Prop where
  sound : e.fault = false
  one : ∀ (g h : Nat) (s t : Submission), e.submissions[g]? = some s →
    e.submissions[h]? = some t → s.fate = .running → t.fate = .running → g = h
  kept : ∀ (g : Nat) (s : Submission), e.submissions[g]? = some s → s.fate = .running →
    s.owners = true ∧ ∃ c, e.context = some c ∧ c.Keeps g s
  retained : ∀ (g : Nat) (s : Submission), e.submissions[g]? = some s → s.fate = .quarantined →
    ∃ c ∈ e.quarantine, c.Keeps g s
  host : ∀ (g : Nat) (s : Submission), e.submissions[g]? = some s →
    s.ran.Nodup ∧ (s.ran ≠ [] → s.waited = true)
  executed : ∀ (g : Nat) (s : Submission), e.submissions[g]? = some s →
    (s.executed = true ↔ s.fate ≠ .running ∧ s.error = none)
  lease : ∀ (g : Nat) (s : Submission), e.submissions[g]? = some s →
    s.lease = .taken ∨ s.lease = .given → s.fate ≠ .running
  returned : ∀ (g : Nat) (s : Submission), e.submissions[g]? = some s → s.alive = false →
    s.lease ≠ .held

theorem Invariant.lifecycle {e : Engine} (h : Invariant e) : e.Lifecycle := by
  have hopen : ∀ (g : Nat) (s : Submission), e.submissions[g]? = some s → s.fate = .running →
      s.Open ∧ e.pending = some g ∧ ∃ c, e.context = some c ∧ c.Keeps g s := by
    intro g s hget hfate
    cases hc : s.complete with
    | false => exact (h.submissions g s hget).1 hc
    | true => exact absurd hfate ((h.submissions g s hget).2 hc).fate
  refine ⟨h.sound, ?_, ?_, h.retained, ?_, ?_, ?_, ?_⟩
  · intro g k s t hs ht hfate hfate'
    obtain ⟨-, hp, -⟩ := hopen g s hs hfate
    obtain ⟨-, hp', -⟩ := hopen k t ht hfate'
    exact Option.some.inj (hp.symm.trans hp')
  · intro g s hget hfate
    obtain ⟨ho, -, hkeeps⟩ := hopen g s hget hfate
    exact ⟨ho.owners, hkeeps⟩
  · intro g s hget
    cases hc : s.complete with
    | false =>
      obtain ⟨ho, -⟩ := (h.submissions g s hget).1 hc
      simp [ho.ran]
    | true =>
      have hd := (h.submissions g s hget).2 hc
      exact ⟨hd.ran, fun hran => hd.waited (.inl hran)⟩
  · intro g s hget
    cases hc : s.complete with
    | false =>
      obtain ⟨ho, -⟩ := (h.submissions g s hget).1 hc
      simp [ho.executed, ho.fate]
    | true =>
      have hd := (h.submissions g s hget).2 hc
      rw [hd.executed]
      exact ⟨fun herror => ⟨hd.fate, herror⟩, fun hboth => hboth.2⟩
  · intro g s hget hlease hfate
    obtain ⟨ho, -⟩ := hopen g s hget hfate
    rcases ho.lease with habsent | hheld
    · simp [habsent] at hlease
    · simp [hheld] at hlease
  · intro g s hget halive
    cases hc : s.complete with
    | false =>
      obtain ⟨ho, -⟩ := (h.submissions g s hget).1 hc
      simp [ho.alive] at halive
    | true => exact ((h.submissions g s hget).2 hc).returned halive

/-- In every run in which no handle of a pending group goes inside a gather callback the
    engine is in order at every moment. -/
theorem engine_lifecycle (limits : Limits) {e : Engine}
    (h : (system limits).Run DropsOutside e) : e.Lifecycle :=
  (System.Run.invariant (I := Invariant)
    (fun s (hs : s = .start) => by rw [hs]; exact Invariant.start)
    (fun _ _ _ hs hok hstep => hs.step hok hstep) h).lifecycle

/-! ### A handle that goes inside a callback -/

def smallEngine : Limits where
  retained := 2 ^ 28
  live := 0
  maxWorkers := 64
  maxStreams := 8

/-- Work on one stream that takes one block of scratch, and succeeds. -/
def plainWork : Work where
  inCallback := false
  key := { device := 0, streams := 1, threads := 1, affinity := [] }
  options := { pinning := .pinned, minPinnedBytes := none, maxScratchBytes := 2 ^ 20 }
  consumed := false
  made := true
  allocations := [(64, true, some 4096)]
  host := 0
  hostResult := false
  breaks := false
  error := none
  recordFails := false
  quiesces := true
  finishFails := false

/-- A backend that does what it is asked. -/
def healthy : Answers where
  ready := true
  queryFails := false
  waitFails := false
  hostError := fun _ => none
  quiesces := true
  finishFails := false
  message := ""

/-- Work that leaves two host completions to its end. -/
def hostedWork : Work :=
  { plainWork with host := 2 }

/-- A group with two host completions is waited for and dropped, and another one is dropped
    while it runs: the completions of both run, each of them once. -/
theorem engine_lifecycle_hosted :
    ∃ e, (system smallEngine).perform
        [.submit hostedWork true healthy, .wait 0 false healthy, .giveLease 0,
          .destroy 0 false healthy, .submit hostedWork false healthy, .destroy 1 false healthy]
          .start = some e ∧
      e.submissions.map Submission.ran = [[0, 1], [0, 1]] ∧ e.Lifecycle := by
  have hrun : (system smallEngine).Run DropsOutside .start := .start rfl
  have hsubmit := System.Run.next (Action.submit hostedWork true healthy) hrun trivial rfl
  have hwait := System.Run.next (Action.wait 0 false healthy) hsubmit trivial rfl
  have hgive := System.Run.next (Action.giveLease 0) hwait trivial rfl
  have hdestroy := System.Run.next (Action.destroy 0 false healthy) hgive
    (fun hin => by cases hin) rfl
  have hagain := System.Run.next (Action.submit hostedWork false healthy) hdestroy trivial rfl
  have hdropped := System.Run.next (Action.destroy 1 false healthy) hagain
    (fun hin => by cases hin) rfl
  exact ⟨_, rfl, by decide +kernel, engine_lifecycle smallEngine hdropped⟩

/-- The last handle of a pending group goes inside a callback, and the next call takes the
    context: the group still runs, and nobody keeps its owners. -/
theorem engine_lifecycle_dropped :
    ∃ e, (system smallEngine).perform
        [.submit plainWork true healthy, .destroy 0 true healthy, .execute plainWork healthy]
          .start = some e ∧ ¬ e.Lifecycle := by
  have hbad : (((system smallEngine).perform
      [.submit plainWork true healthy, .destroy 0 true healthy, .execute plainWork healthy]
        .start).map fun e =>
          (e.submissions[0]?.map Submission.fate, e.context.map Context.owners)) =
      some (some .running, some none) := by decide +kernel
  obtain ⟨e, he, hlook⟩ := Option.map_eq_some_iff.mp hbad
  refine ⟨e, he, fun hcycle => ?_⟩
  obtain ⟨hfate, howners⟩ := Prod.mk.inj hlook
  obtain ⟨s, hs, hrunning⟩ := Option.map_eq_some_iff.mp hfate
  obtain ⟨c, hc, hnone⟩ := Option.map_eq_some_iff.mp howners
  obtain ⟨-, c', hc', hkeeps⟩ := hcycle.kept 0 s hs hrunning
  rw [Option.some.inj (hc'.symm.trans hc), Context.Keeps, hnone] at hkeeps
  cases hkeeps.1

end SymReloc.Dispatch
