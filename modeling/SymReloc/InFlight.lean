import Mathlib.Data.List.Basic
import Mathlib.Logic.Function.Conjugate
import Mathlib.Tactic.Common

/-!
# Operations in flight

A host submits operations to the queues of a device and records events behind them.  A queue
runs what it holds in order; between the queues the order is open.  An event is complete when
no queue holds it any more.  What the device still has to do would take the store to the one of
a host that waits for every operation (`replay`), as long as nothing overtakes an operation that
it does not commute with; and behind a complete event no operation is left that it guards
(`Guarded`).
-/

namespace SymReloc.InFlight

open Function (Commute)

variable {S Op : Type}

/-- What a queue holds. -/
inductive Item (Op : Type) where
  | operation (op : Op)
  | event (handle : Nat)
deriving DecidableEq, Repr

/-- What the queues hold, each item with its queue, the oldest first. -/
abbrev Flight (Op : Type) := List (Nat × Item Op)

/-- The oldest item of a queue leaves it. -/
inductive Runs : Flight Op → Item Op → Flight Op → Prop
  | oldest (before : Flight Op) (queue : Nat) (item : Item Op) (after : Flight Op)
      (holds : ∀ entry ∈ before, entry.1 ≠ queue) :
      Runs (before ++ (queue, item) :: after) item (before ++ after)

/-- No queue holds the event. -/
def Complete (flight : Flight Op) (handle : Nat) : Prop := ∀ entry ∈ flight, entry.2 ≠ .event handle

/-- No operation of a kind is in flight. -/
def Idle (flight : Flight Op) (kind : Op → Prop) : Prop :=
  ∀ queue op, (queue, .operation op) ∈ flight → ¬ kind op

/-- Every operation of a kind is in front of the event in its queue. -/
def Guarded (kind : Op → Prop) (handle : Nat) : Flight Op → Prop
  | [] => True
  | (queue, .operation op) :: rest =>
      (kind op → (queue, .event handle) ∈ rest) ∧ Guarded kind handle rest
  | (_, .event _) :: rest => Guarded kind handle rest

variable {kind : Op → Prop} {handle queue : Nat} {flight flight' before after : Flight Op}
  {item : Item Op}

/-! ### What leaves and what comes -/

theorem Runs.sublist (h : Runs flight item flight') : flight'.Sublist flight := by
  obtain ⟨before, queue, item, after, -⟩ := h
  exact (List.sublist_cons_self _ _).append_left _

theorem Runs.length (h : Runs flight item flight') : flight'.length + 1 = flight.length := by
  obtain ⟨before, queue, item, after, -⟩ := h
  simp only [List.length_append, List.length_cons]
  omega

theorem runs_head {entry : Nat × Item Op} : Runs (entry :: flight) entry.2 flight :=
  .oldest [] entry.1 entry.2 flight fun _ hmem => absurd hmem List.not_mem_nil

theorem Complete.sublist (h : Complete flight handle) (hsub : flight'.Sublist flight) :
    Complete flight' handle := fun entry hmem => h entry (hsub.subset hmem)

theorem Idle.sublist (h : Idle flight kind) (hsub : flight'.Sublist flight) : Idle flight' kind :=
  fun queue op hmem => h queue op (hsub.subset hmem)

@[simp] theorem idle_nil : Idle ([] : Flight Op) kind :=
  fun _ _ hmem => absurd hmem List.not_mem_nil

theorem idle_append : Idle (flight ++ flight') kind ↔ Idle flight kind ∧ Idle flight' kind := by
  constructor
  · intro h
    exact ⟨fun queue op hmem => h queue op (List.mem_append_left _ hmem),
      fun queue op hmem => h queue op (List.mem_append_right _ hmem)⟩
  · rintro ⟨h, h'⟩ queue op hmem
    rcases List.mem_append.mp hmem with hleft | hright
    · exact h queue op hleft
    · exact h' queue op hright

theorem idle_op {op : Op} : Idle [(queue, Item.operation op)] kind ↔ ¬ kind op := by
  constructor
  · intro h
    exact h queue op (List.mem_singleton_self _)
  · intro h queue' op' hmem
    cases List.mem_singleton.mp hmem
    exact h

theorem idle_event : Idle [(queue, Item.event handle)] kind := by
  intro queue' op hmem
  cases List.mem_singleton.mp hmem

/-! ### Events -/

/-- Behind a complete event nothing that it guards is left. -/
theorem Guarded.idle (h : Guarded kind handle flight) (hcomplete : Complete flight handle) :
    Idle flight kind := by
  induction flight with
  | nil => exact idle_nil
  | cons entry rest ih =>
      have hrest : Complete rest handle := hcomplete.sublist (List.sublist_cons_self _ _)
      obtain ⟨queue, item⟩ := entry
      cases item with
      | operation op =>
          intro queue' op' hmem hkind
          rcases List.mem_cons.mp hmem with heq | htail
          · cases heq
            exact hrest _ (h.1 hkind) rfl
          · exact ih h.2 hrest queue' op' htail hkind
      | event other =>
          intro queue' op' hmem
          rcases List.mem_cons.mp hmem with heq | htail
          · cases heq
          · exact ih h hrest queue' op' htail

theorem Idle.guarded (h : Idle flight kind) (handle : Nat) : Guarded kind handle flight := by
  induction flight with
  | nil => trivial
  | cons entry rest ih =>
      have hrest := ih (h.sublist (List.sublist_cons_self _ _))
      obtain ⟨queue, item⟩ := entry
      cases item with
      | operation op => exact ⟨fun hkind => absurd hkind (h queue op List.mem_cons_self), hrest⟩
      | event other => exact hrest

/-- The oldest item of a queue leaves nothing unguarded: an event leaves behind all that is in
    front of it in its queue. -/
theorem Guarded.runs (h : Guarded kind handle flight) (hruns : Runs flight item flight') :
    Guarded kind handle flight' := by
  obtain ⟨before, queue, item, after, hfirst⟩ := hruns
  induction before with
  | nil =>
      cases item with
      | operation op => exact h.2
      | event other => exact h
  | cons entry before ih =>
      rw [List.forall_mem_cons] at hfirst
      obtain ⟨queue', item'⟩ := entry
      cases item' with
      | operation op =>
          refine ⟨fun hkind => ?_, ih hfirst.2 h.2⟩
          rcases List.mem_append.mp (h.1 hkind) with hbefore | hafter
          · exact List.mem_append_left _ hbefore
          · rcases List.mem_cons.mp hafter with heq | htail
            · exact absurd (congrArg Prod.fst heq) hfirst.1
            · exact List.mem_append_right _ htail
      | event other => exact ih hfirst.2 h

/-- An item at the end guards what it guarded before, and itself. -/
theorem Guarded.append (h : Guarded kind handle flight) (h' : Guarded kind handle flight') :
    Guarded kind handle (flight ++ flight') := by
  induction flight with
  | nil => exact h'
  | cons entry rest ih =>
      obtain ⟨queue, item⟩ := entry
      cases item with
      | operation op => exact ⟨fun hkind => List.mem_append_left _ (h.1 hkind), ih h.2⟩
      | event other => exact ih h

/-- An event recorded in the queue that holds every operation of a kind guards them. -/
theorem guarded_record
    (h : ∀ queue' op, (queue', .operation op) ∈ flight → kind op → queue' = queue) :
    Guarded kind handle (flight ++ [(queue, .event handle)]) := by
  induction flight with
  | nil => trivial
  | cons entry rest ih =>
      have hrest := ih fun queue' op hmem => h queue' op (List.mem_cons_of_mem _ hmem)
      obtain ⟨queue', item⟩ := entry
      cases item with
      | operation op =>
          refine ⟨fun hkind => ?_, hrest⟩
          rw [h queue' op List.mem_cons_self hkind]
          exact List.mem_append_right _ (List.mem_singleton_self _)
      | event other => exact hrest

/-! ### The store behind the flight -/

section
variable (exec : Op → S → S)

def Item.run : Item Op → S → S
  | .operation op => exec op
  | .event _ => id

/-- The store when all that is in flight has run. -/
def replay (flight : Flight Op) (store : S) : S :=
  flight.foldl (fun store entry => entry.2.run exec store) store

/-- Operations in different queues commute. -/
def QueuesCommute (flight : Flight Op) : Prop :=
  ∀ entry ∈ flight, ∀ entry' ∈ flight, entry.1 ≠ entry'.1 →
    Commute (entry.2.run exec) (entry'.2.run exec)

variable {exec} {store : S}

theorem replay_append :
    replay exec (flight ++ flight') store = replay exec flight' (replay exec flight store) :=
  List.foldl_append

theorem replay_op {op : Op} : replay exec (flight ++ [(queue, .operation op)]) store =
    exec op (replay exec flight store) := replay_append

theorem replay_event :
    replay exec (flight ++ [(queue, .event handle)]) store = replay exec flight store :=
  replay_append

/-- What every operation keeps is kept. -/
theorem replay_keeps {T : Type} {f : S → T} (h : ∀ op store, f (exec op store) = f store) :
    f (replay exec flight store) = f store := by
  induction flight generalizing store with
  | nil => rfl
  | cons entry rest ih =>
      obtain ⟨queue, item⟩ := entry
      cases item with
      | operation op => exact ih.trans (h op store)
      | event handle => exact ih

/-- With no operation in flight nothing is to be done. -/
theorem Idle.replay_eq (h : Idle flight fun _ => True) : replay exec flight store = store := by
  induction flight with
  | nil => rfl
  | cons entry rest ih =>
      obtain ⟨queue, item⟩ := entry
      cases item with
      | operation op => exact absurd trivial (h queue op List.mem_cons_self)
      | event handle => exact ih (h.sublist (List.sublist_cons_self _ _))

/-- What runs then is an event. -/
theorem Idle.run_eq (h : Idle flight fun _ => True) (hruns : Runs flight item flight') :
    item.run exec store = store := by
  obtain ⟨before, queue, item, after, -⟩ := hruns
  cases item with
  | operation op => exact absurd trivial (h queue op (by simp))
  | event handle => rfl

/-- What commutes with all that is in flight may come first. -/
theorem replay_commute {f : S → S} (h : ∀ entry ∈ flight, Commute (entry.2.run exec) f) :
    replay exec flight (f store) = f (replay exec flight store) := by
  induction flight generalizing store with
  | nil => rfl
  | cons entry rest ih =>
      rw [List.forall_mem_cons] at h
      show replay exec rest (entry.2.run exec (f store)) =
        f (replay exec rest (entry.2.run exec store))
      rw [h.1.eq, ih h.2]

/-- The device does what is to be done. -/
theorem replay_runs (hruns : Runs flight item flight') (h : QueuesCommute exec flight) :
    replay exec flight' (item.run exec store) = replay exec flight store := by
  obtain ⟨before, queue, item, after, hfirst⟩ := hruns
  have hitem : (queue, item) ∈ before ++ (queue, item) :: after := by simp
  have hcommute : ∀ entry ∈ before, Commute (entry.2.run exec) (item.run exec) := by
    intro entry hmem
    exact h entry (List.mem_append_left _ hmem) _ hitem (hfirst entry hmem)
  rw [replay_append, replay_append, replay_commute hcommute]
  rfl

end

end SymReloc.InFlight
