import Mathlib.Data.Nat.Notation
import Mathlib.Logic.Basic

/-!
# Runs of a system

A system is a set of initial states and a partial function that says what an action
does to a state.  Threads that take turns under a lock are such a system: an action
names the thread and what it does between two points where another may come in.

`Run ok` collects the states of the runs whose steps all meet a condition, so that
"in every run that avoids this branch" has the same rules as "in every run".
-/

namespace SymReloc

universe u v

/-- Initial states, and what an action does to a state in which it can be taken. -/
structure System (σ : Type u) (α : Type v) where
  initial : σ → Prop
  step : σ → α → Option σ

namespace System

variable {σ : Type u} {α : Type v} (system : System σ α)

/-- The states of the runs all of whose steps meet `ok`. -/
inductive Run (ok : σ → α → Prop) : σ → Prop
  | start {s : σ} : system.initial s → Run ok s
  | next {s t : σ} (a : α) : Run ok s → ok s a → system.step s a = some t → Run ok t

/-- The states of all runs. -/
def Reachable (s : σ) : Prop := system.Run (fun _ _ => True) s

/-- The states that come after a state. -/
inductive Leads (s : σ) : σ → Prop
  | here : Leads s s
  | next {t t' : σ} (a : α) : Leads s t → system.step t a = some t' → Leads s t'

/-- Take actions one after the other. -/
def perform : List α → σ → Option σ
  | [], s => some s
  | a :: rest, s =>
      match system.step s a with
      | none => none
      | some t => perform rest t

/-- The system whose steps pass a test. -/
def guarded (test : σ → α → Bool) : System σ α where
  initial := system.initial
  step := fun s a => if test s a then system.step s a else none

variable {system} {ok : σ → α → Prop} {I J : σ → Prop} {s t : σ}

theorem Run.reachable (h : system.Run ok s) : system.Reachable s := by
  induction h with
  | start h => exact .start h
  | next a _ _ hstep ih => exact .next a ih trivial hstep

/-- What holds at the start and is kept by every step holds in every run. -/
theorem Run.invariant (hinit : ∀ s, system.initial s → I s)
    (hstep : ∀ s a t, I s → ok s a → system.step s a = some t → I t)
    (h : system.Run ok s) : I s := by
  induction h with
  | start h => exact hinit _ h
  | next a _ hok htake ih => exact hstep _ a _ ih hok htake

theorem Reachable.invariant (hinit : ∀ s, system.initial s → I s)
    (hstep : ∀ s a t, I s → system.step s a = some t → I t) (h : system.Reachable s) : I s :=
  Run.invariant hinit (fun s a t hs _ htake => hstep s a t hs htake) h

/-- An invariant whose steps may use another one. -/
theorem Run.invariant_with (hbase : ∀ s, system.Reachable s → J s)
    (hinit : ∀ s, system.initial s → I s)
    (hstep : ∀ s a t, J s → J t → I s → ok s a → system.step s a = some t → I t)
    (h : system.Run ok s) : I s := by
  induction h with
  | start h => exact hinit _ h
  | next a hrun hok htake ih =>
    exact hstep _ a _ (hbase _ hrun.reachable)
      (hbase _ (.next a hrun.reachable trivial htake)) ih hok htake

theorem Reachable.leads (h : system.Reachable s) (hleads : system.Leads s t) :
    system.Reachable t := by
  induction hleads with
  | here => exact h
  | next a _ hstep ih => exact .next a ih trivial hstep

/-- What every step keeps stays true in all the states that come after. -/
theorem Leads.invariant (hstep : ∀ s a t, system.Reachable s → I s →
    system.step s a = some t → I t) (hs : system.Reachable s) (h : I s)
    (hleads : system.Leads s t) : I t := by
  induction hleads with
  | here => exact h
  | next a hleads htake ih => exact hstep _ a _ (hs.leads hleads) ih htake

theorem Run.perform {actions : List α} (h : system.Run ok s) (hok : ∀ a ∈ actions, ∀ s, ok s a)
    (hperform : system.perform actions s = some t) : system.Run ok t := by
  induction actions generalizing s with
  | nil =>
    cases hperform
    exact h
  | cons a rest ih =>
    simp only [System.perform] at hperform
    cases hstep : system.step s a with
    | none => simp [hstep] at hperform
    | some u =>
      rw [hstep] at hperform
      rw [List.forall_mem_cons] at hok
      exact ih (.next a h (hok.1 s) hstep) hok.2 hperform

theorem reachable_of_perform {actions : List α} (h : system.initial s)
    (hperform : system.perform actions s = some t) : system.Reachable t :=
  Run.perform (.start h) (fun _ _ _ => trivial) hperform

theorem Leads.perform {actions : List α} {u : σ} (h : system.Leads s u)
    (hperform : system.perform actions u = some t) : system.Leads s t := by
  induction actions generalizing u with
  | nil =>
    cases hperform
    exact h
  | cons a rest ih =>
    simp only [System.perform] at hperform
    cases hstep : system.step u a with
    | none => simp [hstep] at hperform
    | some v =>
      rw [hstep] at hperform
      exact ih (.next a h hstep) hperform

/-- Actions that pass a test for the condition are a run that meets it. -/
theorem run_of_guarded {test : σ → α → Bool} (htest : ∀ s a, test s a = true → ok s a)
    {actions : List α} (h : system.Run ok s)
    (hperform : (system.guarded test).perform actions s = some t) : system.Run ok t := by
  induction actions generalizing s with
  | nil =>
    cases hperform
    exact h
  | cons a rest ih =>
    simp only [System.perform, System.guarded] at hperform
    by_cases hpass : test s a = true
    · rw [if_pos hpass] at hperform
      cases hstep : system.step s a with
      | none => simp [hstep] at hperform
      | some u =>
        rw [hstep] at hperform
        exact ih (.next a h (htest s a hpass) hstep) hperform
    · simp [hpass] at hperform

end System

end SymReloc
