import Mathlib.Data.List.Perm.Basic
import SymReloc.Runtime.GatherPool

/-!
# The barrier of the gather pool

Over every interleaving of callers, workers and `close`: a call has its parts run once each
and returns when all of them have ended.
-/

namespace SymReloc.GatherPool

/-! ### Invocations -/

def Worker.range : Worker → Option (Int × Int)
  | .running _ range => some range
  | _ => none

/-- The ranges that workers are at. -/
def running (workers : List Worker) : List (Int × Int) := workers.filterMap Worker.range

/-- The first failure that a worker recorded. -/
def recorded (ended : List Invocation) : Option Nat :=
  (ended.filter fun i => !i.byDriver).findSome? Invocation.thrown

/-- The end of the caller's invocation. -/
def driverEnd (ended : List Invocation) : Option (Option Nat) :=
  (ended.find? Invocation.byDriver).map Invocation.thrown

/-- What a call throws: what its own part threw, else what a worker recorded first. -/
def verdict (ended : List Invocation) : Option Nat := (driverEnd ended).join <|> recorded ended

theorem recorded_worker (ended : List Invocation) (range : Int × Int) (thrown : Option Nat) :
    recorded (ended ++ [⟨range, false, thrown⟩]) = (recorded ended <|> thrown) := by
  have hlast : ([⟨range, false, thrown⟩] : List Invocation).filter (fun i => !i.byDriver) =
      [⟨range, false, thrown⟩] := rfl
  rw [recorded, List.filter_append, hlast, List.findSome?_append, recorded]
  cases thrown <;> simp

theorem recorded_driver (ended : List Invocation) (range : Int × Int) (thrown : Option Nat) :
    recorded (ended ++ [⟨range, true, thrown⟩]) = recorded ended := by
  have hlast : ([⟨range, true, thrown⟩] : List Invocation).filter (fun i => !i.byDriver) = [] := rfl
  rw [recorded, List.filter_append, hlast, List.append_nil, recorded]

theorem driverEnd_worker (ended : List Invocation) (range : Int × Int) (thrown : Option Nat) :
    driverEnd (ended ++ [⟨range, false, thrown⟩]) = driverEnd ended := by
  rw [driverEnd, List.find?_append, driverEnd]
  simp

theorem driverEnd_driver {ended : List Invocation} (h : driverEnd ended = none)
    (range : Int × Int) (thrown : Option Nat) :
    driverEnd (ended ++ [⟨range, true, thrown⟩]) = some thrown := by
  rw [driverEnd, Option.map_eq_none_iff] at h
  rw [driverEnd, List.find?_append, h]
  rfl

/-! ### The invariant -/

/-- The call holds the drivers' mutex. -/
def Phase.locked : Phase → Bool
  | .alone locked => locked
  | .entered | .own | .barrier _ => true
  | .queued | .returned _ => false

/-- The call's function is live. -/
def Phase.live : Phase → Bool
  | .own | .barrier _ => true
  | _ => false

/-- The ranges that were begun make up the range of the call. -/
def Call.Covers (call : Call) : Prop :=
  if call.first < call.last then
    ∃ parts, Partition call.first parts call.last ∧ call.begun.Perm parts
  else call.begun = []

/-- A call that has returned: all it began has ended. -/
structure Call.Complete (call : Call) (failure : Option Nat) : Prop where
  covers : call.Covers
  finished : call.begun.Perm (call.ended.map Invocation.range)
  thrown : failure = verdict call.ended

/-- What is known of a call by its phase. -/
def Call.Sound (fn : Option Nat) (c : Nat) (call : Call) : Prop :=
  match call.phase with
  | .alone _ => call.first < call.last ∧ call.begun = [(call.first, call.last)] ∧ call.ended = []
  | .queued | .entered => call.first < call.last ∧ call.begun = [] ∧ call.ended = []
  | .own | .barrier _ => fn = some c
  | .returned failure => call.Complete failure

/-- The part that the caller is at. -/
def Call.atOwn (threads : Nat) (call : Call) : List (Int × Int) :=
  if call.phase = .own then [own threads call.first call.last call.minPerWorker] else []

/-- The caller has its part to end, or has ended it. -/
def Call.Driven (call : Call) : Prop :=
  (call.phase = .own ∧ driverEnd call.ended = none) ∨
    ∃ failure, call.phase = .barrier failure ∧ driverEnd call.ended = some failure

/-- The live call: what is queued, what runs and what has ended are its parts. -/
structure Dispatch (s : State) (c : Nat) (call : Call) : Prop where
  rows : call.first < call.last
  driven : call.Driven
  spread : (call.begun ++ queued s.assigned).Perm
    (parallelRanges s.threads call.first call.last call.minPerWorker)
  running : call.begun.Perm
    (call.ended.map Invocation.range ++ (running s.workers ++ call.atOwn s.threads))
  counted : s.outstanding = (queued s.assigned).length + (GatherPool.running s.workers).length
  failure : s.failure = recorded call.ended
  mine : ∀ c' range, Worker.running c' range ∈ s.workers → c' = c

structure Sound (s : State) : Prop where
  threads : 1 ≤ s.threads
  length : s.assigned.length = s.threads
  calls : ∀ (c : Nat) (call : Call), s.calls[c]? = some call → call.Sound s.fn c
  locked : ∀ (c : Nat) (call : Call), s.calls[c]? = some call → call.phase.locked = true →
    s.driver = some (.call c)
  live : ∀ c, s.fn = some c → ∃ call, s.calls[c]? = some call ∧ Dispatch s c call
  quiet : s.fn = none → queued s.assigned = [] ∧ running s.workers = []

theorem Call.Sound.fn {call : Call} {fn : Option Nat} {c : Nat} (h : call.Sound fn c)
    (hlive : call.phase.live = true) : fn = some c := by
  unfold Call.Sound at h
  cases hphase : call.phase with
  | own => simpa only [hphase] using h
  | barrier failure => simpa only [hphase] using h
  | _ =>
      rw [hphase] at hlive
      cases hlive

/-- Only the live call knows of the function. -/
theorem Call.Sound.congr {call : Call} {fn fn' : Option Nat} {c : Nat} (h : call.Sound fn c)
    (hlive : call.phase.live = false) : call.Sound fn' c := by
  unfold Call.Sound at h ⊢
  cases hphase : call.phase with
  | own =>
      rw [hphase] at hlive
      cases hlive
  | barrier failure =>
      rw [hphase] at hlive
      cases hlive
  | _ => simpa only [hphase] using h

theorem Call.Driven.live {call : Call} (h : call.Driven) : call.phase.live = true := by
  rcases h with ⟨hphase, _⟩ | ⟨failure, hphase, _⟩
  · rw [hphase]
    rfl
  · rw [hphase]
    rfl

theorem Phase.locked_of_live {phase : Phase} (h : phase.live = true) : phase.locked = true := by
  cases phase <;> first | rfl | cases h

/-- Nothing is outstanding: nothing is queued, and no worker is at a range. -/
theorem Dispatch.settled {s : State} {c : Nat} {call : Call} (h : Dispatch s c call)
    (hdone : s.outstanding = 0) :
    queued s.assigned = [] ∧ GatherPool.running s.workers = [] := by
  have hcounted := h.counted
  rw [hdone] at hcounted
  exact ⟨List.eq_nil_of_length_eq_zero (by omega), List.eq_nil_of_length_eq_zero (by omega)⟩

theorem running_replicate (n : Nat) : running (List.replicate n .idle) = [] := by
  rw [running, List.filterMap_eq_nil_iff]
  intro w hw
  rw [List.eq_of_mem_replicate hw]
  rfl

namespace Sound

variable {s t : State} {c w : Nat} {call : Call}

theorem start {threads : Nat} (h : 1 ≤ threads) : Sound (start threads) where
  threads := h
  length := List.length_replicate
  calls := by
    intro c call hcall
    cases hcall
  locked := by
    intro c call hcall
    cases hcall
  live := by
    intro c hfn
    cases hfn
  quiet := fun _ => ⟨queued_replicate threads, running_replicate _⟩

/-- The live call holds the drivers' mutex. -/
theorem driver_of_fn (h : Sound s) (hfn : s.fn = some c) : s.driver = some (.call c) := by
  obtain ⟨call, hcall, hdispatch⟩ := h.live c hfn
  exact h.locked c call hcall (Phase.locked_of_live hdispatch.driven.live)

/-- Who holds the mutex without being live is alone in the pool. -/
theorem fn_none (h : Sound s) (hother : ∀ c call, s.driver = some (.call c) →
    s.calls[c]? = some call → call.phase.live = false) : s.fn = none := by
  cases hfn : s.fn with
  | none => rfl
  | some c =>
      obtain ⟨call, hcall, hdispatch⟩ := h.live c hfn
      have hlive := hother c call (h.driver_of_fn hfn) hcall
      rw [hdispatch.driven.live] at hlive
      cases hlive

theorem get_set {calls : List Call} {c j : Nat} {call call' other : Call}
    (hcall : calls[c]? = some call) (hother : (calls.set c call')[j]? = some other) :
    (c = j ∧ other = call') ∨ (c ≠ j ∧ calls[j]? = some other) := by
  by_cases hcj : c = j
  · subst hcj
    rw [List.getElem?_set_self (List.getElem?_eq_some_iff.mp hcall).1] at hother
    cases hother
    exact .inl ⟨rfl, rfl⟩
  · rw [List.getElem?_set_ne hcj] at hother
    exact .inr ⟨hcj, hother⟩

theorem get_set_self {calls : List Call} {c : Nat} {call call' : Call}
    (hcall : calls[c]? = some call) : (calls.set c call')[c]? = some call' :=
  List.getElem?_set_self (List.getElem?_eq_some_iff.mp hcall).1

/-- A call that is not live changes without becoming live. -/
theorem change (h : Sound s) (hcall : s.calls[c]? = some call) (hidle : call.phase.live = false)
    {call' : Call} {driver : Option Owner} (hsound : call'.Sound s.fn c)
    (hlocked : call'.phase.locked = true → driver = some (.call c))
    (hothers : ∀ j, j ≠ c → s.driver = some (.call j) → driver = some (.call j)) :
    Sound { s with driver, calls := s.calls.set c call' } where
  threads := h.threads
  length := h.length
  calls := by
    intro j other hother
    rcases get_set hcall hother with ⟨rfl, rfl⟩ | ⟨_, hj⟩
    · exact hsound
    · exact h.calls j other hj
  locked := by
    intro j other hother hphase
    rcases get_set hcall hother with ⟨rfl, rfl⟩ | ⟨hcj, hj⟩
    · exact hlocked hphase
    · exact hothers j (Ne.symm hcj) (h.locked j other hj hphase)
  live := by
    intro j hj
    obtain ⟨other, hother, hdispatch⟩ := h.live j hj
    have hne : c ≠ j := by
      intro hcj
      rw [← hcj, hcall] at hother
      cases hother
      rw [hdispatch.driven.live] at hidle
      cases hidle
    refine ⟨other, ?_, ⟨hdispatch.rows, hdispatch.driven, hdispatch.spread, hdispatch.running,
      hdispatch.counted, hdispatch.failure, hdispatch.mine⟩⟩
    rw [List.getElem?_set_ne hne]
    exact hother
  quiet := h.quiet

/-- The live call goes on. -/
theorem advance (h : Sound s) (hfn : s.fn = some c) (hcall : s.calls[c]? = some call)
    {call' : Call} {assigned : List (Int × Int)} {outstanding : Nat} {failure : Option Nat}
    {workers : List Worker} (hlength : assigned.length = s.threads)
    (hdispatch : Dispatch { s with assigned, outstanding, failure, workers,
                                   calls := s.calls.set c call' } c call') :
    Sound { s with assigned, outstanding, failure, workers, calls := s.calls.set c call' } where
  threads := h.threads
  length := hlength
  calls := by
    intro j other hother
    rcases get_set hcall hother with ⟨rfl, rfl⟩ | ⟨_, hj⟩
    · unfold Call.Sound
      rcases hdispatch.driven with ⟨hphase, _⟩ | ⟨failure, hphase, _⟩
      · rw [hphase]
        exact hfn
      · rw [hphase]
        exact hfn
    · exact h.calls j other hj
  locked := by
    intro j other hother hphase
    rcases get_set hcall hother with ⟨rfl, rfl⟩ | ⟨_, hj⟩
    · exact h.driver_of_fn hfn
    · exact h.locked j other hj hphase
  live := by
    intro j hj
    dsimp only at hj
    rw [hfn] at hj
    cases hj
    exact ⟨call', get_set_self hcall, hdispatch⟩
  quiet := by
    intro hnone
    dsimp only at hnone
    rw [hfn] at hnone
    cases hnone

theorem arrive (h : Sound s) (first last minPerWorker : Int) :
    Sound { s with calls := s.calls ++ [.arrive s.threads first last minPerWorker] } := by
  have hnew : ∀ {j : Nat} {other : Call},
      (s.calls ++ [.arrive s.threads first last minPerWorker])[j]? = some other →
      s.calls[j]? = some other ∨ other = .arrive s.threads first last minPerWorker := by
    intro j other hother
    rw [List.getElem?_append] at hother
    split at hother
    · exact .inl hother
    · have hmem := List.mem_of_getElem? hother
      exact .inr (List.mem_singleton.mp hmem)
  refine ⟨h.threads, h.length, ?_, ?_, ?_, h.quiet⟩
  · intro j other hother
    rcases hnew hother with hold | heq
    · exact h.calls j other hold
    · rw [heq, Call.arrive]
      dsimp only
      split
      · refine ⟨?_, List.Perm.refl _, rfl⟩
        rw [Call.Covers, if_neg (by dsimp only; omega)]
      · split
        · exact ⟨by dsimp only; omega, rfl, rfl⟩
        · exact ⟨by dsimp only; omega, rfl, rfl⟩
  · intro j other hother hphase
    rcases hnew hother with hold | heq
    · exact h.locked j other hold hphase
    · rw [heq, Call.arrive] at hphase
      dsimp only at hphase
      split at hphase
      · cases hphase
      · split at hphase
        · cases hphase
        · cases hphase
  · intro j hj
    obtain ⟨other, hother, hdispatch⟩ := h.live j hj
    refine ⟨other, ?_, ⟨hdispatch.rows, hdispatch.driven, hdispatch.spread, hdispatch.running,
      hdispatch.counted, hdispatch.failure, hdispatch.mine⟩⟩
    rw [List.getElem?_append_left (List.getElem?_eq_some_iff.mp hother).1]
    exact hother

theorem enter (h : Sound s) (hcall : s.calls[c]? = some call) (hphase : call.phase = .queued)
    (hfree : s.driver = none) : Sound (s.enter c call) := by
  have hsound := h.calls c call hcall
  rw [Call.Sound, hphase] at hsound
  obtain ⟨hrows, hbegun, hended⟩ := hsound
  refine h.change hcall (by rw [hphase]; rfl) ?_ (fun _ => rfl) ?_
  · cases s.closed
    · exact ⟨hrows, hbegun, hended⟩
    · exact ⟨hrows, rfl, hended⟩
  · intro j _ hdriver
    rw [hfree] at hdriver
    cases hdriver

theorem publish (h : Sound s) (hcall : s.calls[c]? = some call) (hphase : call.phase = .entered) :
    Sound (s.publish c call) := by
  have hdriver : s.driver = some (.call c) := h.locked c call hcall (by rw [hphase]; rfl)
  have hfn : s.fn = none := h.fn_none fun c' call' hdriver' hcall' => by
    rw [hdriver] at hdriver'
    cases hdriver'
    rw [hcall] at hcall'
    cases hcall'
    rw [hphase]
    rfl
  have hsound := h.calls c call hcall
  rw [Call.Sound, hphase] at hsound
  obtain ⟨hrows, _, hended⟩ := hsound
  have hquiet := (h.quiet hfn).2
  refine ⟨h.threads, length_rest h.threads, ?_, ?_, ?_, ?_⟩
  · intro j other hother
    rcases get_set hcall hother with ⟨rfl, rfl⟩ | ⟨_, hj⟩
    · rfl
    · have hother := h.calls j other hj
      refine hother.congr ?_
      cases hlive : other.phase.live with
      | false => rfl
      | true =>
          have hfn' := hother.fn hlive
          rw [hfn] at hfn'
          cases hfn'
  · intro j other hother hlocked
    rcases get_set hcall hother with ⟨rfl, rfl⟩ | ⟨_, hj⟩
    · exact hdriver
    · exact h.locked j other hj hlocked
  · intro j hj
    cases hj
    refine ⟨_, get_set_self hcall, ?_⟩
    refine ⟨hrows, .inl ⟨rfl, ?_⟩, ?_, ?_, ?_, ?_, ?_⟩
    · dsimp only
      rw [hended]
      rfl
    · exact (own_queued h.threads hrows) ▸ List.Perm.refl _
    · show List.Perm _ (call.ended.map Invocation.range ++ (GatherPool.running s.workers ++ _))
      rw [hended, hquiet]
      exact List.Perm.refl _
    · show _ = _ + (GatherPool.running s.workers).length
      rw [hquiet]
      rfl
    · show none = recorded call.ended
      rw [hended]
      rfl
    · intro c' range hmem
      have hrange : range ∈ GatherPool.running s.workers :=
        List.mem_filterMap.mpr ⟨_, hmem, rfl⟩
      rw [hquiet] at hrange
      cases hrange
  · intro hnone
    cases hnone

theorem live_call (h : Sound s) (hfn : s.fn = some c) (hcall : s.calls[c]? = some call) :
    Dispatch s c call := by
  obtain ⟨other, hother, hdispatch⟩ := h.live c hfn
  rw [hcall] at hother
  cases hother
  exact hdispatch

theorem endOwn (h : Sound s) (hcall : s.calls[c]? = some call) {thrown : Option Nat}
    (hstep : s.endOwn c call thrown = some t) : Sound t := by
  have hsound := h.calls c call hcall
  unfold State.endOwn at hstep
  cases hphase : call.phase with
  | alone locked =>
      rw [hphase] at hstep
      cases hstep
      rw [Call.Sound, hphase] at hsound
      obtain ⟨hrows, hbegun, hended⟩ := hsound
      refine h.change hcall (by rw [hphase]; rfl) ?_ (fun hlocked => by cases hlocked) ?_
      · rw [hended]
        refine ⟨?_, ?_, ?_⟩
        · rw [Call.Covers, if_pos hrows]
          exact ⟨_, partition_single hrows, hbegun ▸ List.Perm.refl _⟩
        · dsimp only
          rw [hbegun]
          exact List.Perm.refl _
        · cases thrown <;> rfl
      · intro j hne hdriver
        cases locked with
        | false => exact hdriver
        | true =>
            have hmine := h.locked c call hcall (by rw [hphase]; rfl)
            rw [hdriver] at hmine
            cases hmine
            exact absurd rfl hne
  | own =>
      rw [hphase] at hstep
      cases hstep
      have hfn : s.fn = some c := hsound.fn (by rw [hphase]; rfl)
      have hdispatch := h.live_call hfn hcall
      refine h.advance hfn hcall h.length
        ⟨hdispatch.rows, .inr ⟨thrown, rfl, ?_⟩, hdispatch.spread, ?_, hdispatch.counted, ?_,
          hdispatch.mine⟩
      · rcases hdispatch.driven with ⟨_, hnone⟩ | ⟨failure, hbarrier, _⟩
        · exact driverEnd_driver hnone _ _
        · rw [hphase] at hbarrier
          cases hbarrier
      · have hrunning := hdispatch.running
        rw [Call.atOwn, if_pos hphase] at hrunning
        refine hrunning.trans ?_
        rw [Call.atOwn, if_neg (by simp), List.map_append, List.append_nil, List.append_assoc]
        exact List.Perm.append_left _ List.perm_append_comm
      · exact hdispatch.failure.trans (recorded_driver _ _ _).symm
  | queued =>
      rw [hphase] at hstep
      cases hstep
  | entered =>
      rw [hphase] at hstep
      cases hstep
  | barrier failure =>
      rw [hphase] at hstep
      cases hstep
  | returned failure =>
      rw [hphase] at hstep
      cases hstep

theorem leave (h : Sound s) (hcall : s.calls[c]? = some call) {failure : Option Nat}
    (hphase : call.phase = .barrier failure) (hdone : s.outstanding = 0) :
    Sound (s.leave c call failure) := by
  have hsound := h.calls c call hcall
  have hfn : s.fn = some c := hsound.fn (by rw [hphase]; rfl)
  have hdispatch := h.live_call hfn hcall
  obtain ⟨hqueued, hrunning⟩ := hdispatch.settled hdone
  refine ⟨h.threads, h.length, ?_, ?_, ?_, fun _ => ⟨hqueued, hrunning⟩⟩
  · intro j other hother
    rcases get_set hcall hother with ⟨rfl, rfl⟩ | ⟨hcj, hj⟩
    · refine ⟨?_, ?_, ?_⟩
      · have hspread := hdispatch.spread
        rw [hqueued, List.append_nil] at hspread
        rw [Call.Covers, if_pos hdispatch.rows]
        exact ⟨_, partition_parallelRanges (by exact_mod_cast h.threads) hdispatch.rows _, hspread⟩
      · have hall := hdispatch.running
        rw [hrunning, Call.atOwn, hphase, if_neg (by simp), List.append_nil,
          List.append_nil] at hall
        exact hall
      · rcases hdispatch.driven with ⟨hown, _⟩ | ⟨failure', hbarrier, hdriver⟩
        · rw [hphase] at hown
          cases hown
        · rw [hphase] at hbarrier
          cases hbarrier
          rw [verdict, hdriver, hdispatch.failure]
          rfl
    · have hother := h.calls j other hj
      refine hother.congr ?_
      cases hlive : other.phase.live with
      | false => rfl
      | true =>
          have hfn' := hother.fn hlive
          rw [hfn] at hfn'
          cases hfn'
          exact absurd rfl hcj
  · intro j other hother hlocked
    rcases get_set hcall hother with ⟨rfl, rfl⟩ | ⟨hcj, hj⟩
    · cases hlocked
    · have hdriver := h.locked j other hj hlocked
      rw [h.driver_of_fn hfn] at hdriver
      cases hdriver
      exact absurd rfl hcj
  · intro j hj
    cases hj

/-! ### Workers -/

/-- Putting one thing in the place of another. -/
theorem perm_set {α : Type} {list : List α} {i : Nat} {a : α} (hget : list[i]? = some a) (b : α) :
    (a :: list.set i b).Perm (b :: list) := by
  obtain ⟨hlt, rfl⟩ := List.getElem?_eq_some_iff.mp hget
  exact ((List.set_perm_cons_eraseIdx hlt b).cons _).trans
    ((List.Perm.swap _ _ _).trans ((List.getElem_cons_eraseIdx_perm hlt).cons b))

theorem queued_take {assigned : List (Int × Int)} {i : Nat} {range : Int × Int}
    (hget : assigned[i]? = some range) (hpending : pending range = true) :
    (queued assigned).Perm (range :: queued (assigned.set i (0, 0))) := by
  have hperm := (perm_set hget (0, 0)).filter pending
  rw [List.filter_cons_of_pos hpending, List.filter_cons_of_neg (by decide)] at hperm
  exact hperm.symm

theorem running_take {workers : List Worker} {i c : Nat} (hget : workers[i]? = some .idle)
    (range : Int × Int) :
    (running (workers.set i (.running c range))).Perm (range :: running workers) :=
  (perm_set hget (.running c range)).filterMap Worker.range

theorem running_finish {workers : List Worker} {i c : Nat} {range : Int × Int}
    (hget : workers[i]? = some (.running c range)) :
    (running workers).Perm (range :: running (workers.set i .idle)) :=
  ((perm_set hget .idle).filterMap Worker.range).symm

theorem take (h : Sound s) (hcall : s.calls[c]? = some call) (hfn : s.fn = some c)
    {range : Int × Int} (hworker : s.workers[w]? = some .idle)
    (hassigned : s.assigned[w + 1]? = some range) (hpending : pending range = true) :
    Sound (s.take w c call range) := by
  have hdispatch := h.live_call hfn hcall
  have hqueued := queued_take hassigned hpending
  have hrunning := running_take (c := c) hworker range
  refine h.advance hfn hcall ?_ ⟨hdispatch.rows, hdispatch.driven, ?_, ?_, ?_, hdispatch.failure,
    ?_⟩
  · rw [List.length_set]
    exact h.length
  · refine List.Perm.trans ?_ hdispatch.spread
    rw [List.append_assoc]
    exact List.Perm.append_left _ hqueued.symm
  · have hbegun : (call.begun ++ [range]).Perm (range :: call.begun) := List.perm_append_comm
    refine hbegun.trans ((hdispatch.running.cons range).trans ?_)
    refine List.perm_middle.symm.trans (List.Perm.append_left _ ?_)
    exact hrunning.symm.append_right _
  · have hcounted := hdispatch.counted
    have hless := hqueued.length_eq
    have hmore := hrunning.length_eq
    rw [List.length_cons] at hless hmore
    dsimp only
    omega
  · intro c' range' hmem
    rcases List.mem_or_eq_of_mem_set hmem with hold | heq
    · exact hdispatch.mine c' range' hold
    · cases heq
      rfl

theorem finish (h : Sound s) {c' : Nat} {range : Int × Int}
    (hworker : s.workers[w]? = some (.running c' range)) (hcall : s.calls[c']? = some call)
    (thrown : Option Nat) : Sound (s.finish w c' call range thrown) := by
  have hfn : s.fn = some c' := by
    cases hfn : s.fn with
    | none =>
        have hmem : range ∈ GatherPool.running s.workers :=
          List.mem_filterMap.mpr ⟨_, List.mem_of_getElem? hworker, rfl⟩
        rw [(h.quiet hfn).2] at hmem
        cases hmem
    | some c =>
        obtain ⟨_, _, hdispatch⟩ := h.live c hfn
        rw [hdispatch.mine c' range (List.mem_of_getElem? hworker)]
  have hdispatch := h.live_call hfn hcall
  have hrunning := running_finish hworker
  refine h.advance hfn hcall h.length ⟨hdispatch.rows, ?_, hdispatch.spread, ?_, ?_, ?_, ?_⟩
  · rcases hdispatch.driven with ⟨hphase, hnone⟩ | ⟨failure, hphase, hdriver⟩
    · exact .inl ⟨hphase, (driverEnd_worker _ _ _).trans hnone⟩
    · exact .inr ⟨failure, hphase, (driverEnd_worker _ _ _).trans hdriver⟩
  · refine hdispatch.running.trans ?_
    rw [List.map_append, List.append_assoc]
    refine List.Perm.append_left _ ?_
    exact hrunning.append_right _
  · have hcounted := hdispatch.counted
    have hless := hrunning.length_eq
    rw [List.length_cons] at hless
    dsimp only
    omega
  · dsimp only
    rw [recorded_worker, hdispatch.failure]
  · intro c'' range' hmem
    rcases List.mem_or_eq_of_mem_set hmem with hold | heq
    · exact hdispatch.mine c'' range' hold
    · cases heq

/-- The workers end, and the drivers' mutex goes to a call of `close` or comes from it. -/
theorem shut (h : Sound s) {closed stop : Bool} {driver : Option Owner} {workers : List Worker}
    (hworkers : ∀ worker ∈ workers, worker ∈ s.workers ∨ worker = .exited)
    (hrunning : (GatherPool.running s.workers).Perm (GatherPool.running workers))
    (hdriver : ∀ c, s.driver = some (.call c) → driver = some (.call c)) :
    Sound { s with closed, stop, driver, workers } where
  threads := h.threads
  length := h.length
  calls := h.calls
  locked := fun c call hcall hphase => hdriver c (h.locked c call hcall hphase)
  live := by
    intro c hfn
    obtain ⟨call, hcall, hdispatch⟩ := h.live c hfn
    refine ⟨call, hcall, ⟨hdispatch.rows, hdispatch.driven, hdispatch.spread, ?_, ?_,
      hdispatch.failure, ?_⟩⟩
    · exact hdispatch.running.trans (List.Perm.append_left _ (hrunning.append_right _))
    · dsimp only
      rw [← hrunning.length_eq]
      exact hdispatch.counted
    · intro c' range hmem
      rcases hworkers _ hmem with hold | hexited
      · exact hdispatch.mine c' range hold
      · cases hexited
  quiet := by
    intro hfn
    obtain ⟨hqueued, hidle⟩ := h.quiet hfn
    rw [hidle] at hrunning
    exact ⟨hqueued, List.nil_perm.mp hrunning⟩

theorem quit (h : Sound s) (hworker : s.workers[w]? = some .idle) :
    Sound { s with workers := s.workers.set w .exited } := by
  have hworkers : ∀ worker ∈ s.workers.set w .exited, worker ∈ s.workers ∨ worker = .exited :=
    fun worker hmem => List.mem_or_eq_of_mem_set hmem
  have hrunning := ((perm_set hworker .exited).filterMap Worker.range).symm
  have hshut : Sound { s with closed := s.closed, stop := s.stop, driver := s.driver,
                              workers := s.workers.set w .exited } :=
    h.shut hworkers hrunning fun _ => id
  exact hshut

theorem joined (h : Sound s) (hdriver : s.driver = some .close)
    (hexited : ∀ worker ∈ s.workers, worker = .exited) :
    Sound { s with driver := none, closed := true, workers := [] } := by
  refine h.shut ?_ ?_ ?_
  · intro worker hmem
    cases hmem
  · have hnone : GatherPool.running s.workers = [] := by
      rw [GatherPool.running, List.filterMap_eq_nil_iff]
      intro worker hmem
      rw [hexited worker hmem]
      rfl
    rw [hnone]
    exact List.Perm.refl _
  · intro c hcall
    rw [hdriver] at hcall
    cases hcall

theorem close (h : Sound s) (hfree : s.driver = none) :
    Sound (if s.closed then s else { s with stop := true, driver := some .close }) := by
  split
  · exact h
  · refine h.shut ?_ (List.Perm.refl _) ?_
    · intro worker hmem
      exact .inl hmem
    · intro c hcall
      rw [hfree] at hcall
      cases hcall

theorem step (h : Sound s) {a : Action} (hstep : GatherPool.step s a = some t) : Sound t := by
  cases a with
  | call first last minPerWorker =>
      rw [GatherPool.step] at hstep
      split at hstep
      · cases hstep
        exact h.arrive first last minPerWorker
      · cases hstep
  | enter c =>
      rw [GatherPool.step] at hstep
      split at hstep
      · rename_i hcall
        split at hstep
        · rename_i hphase
          cases hstep
          exact h.enter hcall hphase.1 hphase.2
        · cases hstep
      · cases hstep
  | publish c =>
      rw [GatherPool.step] at hstep
      split at hstep
      · rename_i hcall
        split at hstep
        · rename_i hphase
          cases hstep
          exact h.publish hcall hphase
        · cases hstep
      · cases hstep
  | endOwn c thrown =>
      rw [GatherPool.step] at hstep
      split at hstep
      · rename_i hcall
        exact h.endOwn hcall hstep
      · cases hstep
  | leave c =>
      rw [GatherPool.step] at hstep
      split at hstep
      · rename_i hcall
        split at hstep
        · rename_i hphase
          split at hstep
          · rename_i hdone
            cases hstep
            exact h.leave hcall hphase hdone
          · cases hstep
        · cases hstep
      · cases hstep
  | take w =>
      rw [GatherPool.step] at hstep
      split at hstep
      · rename_i hworker hassigned hfn
        split at hstep
        · rename_i hcall
          split at hstep
          · rename_i hpending
            cases hstep
            exact h.take hcall hfn hworker hassigned hpending
          · cases hstep
        · cases hstep
      · cases hstep
  | finish w thrown =>
      rw [GatherPool.step] at hstep
      split at hstep
      · rename_i hworker
        split at hstep
        · rename_i hcall
          cases hstep
          exact h.finish hworker hcall thrown
        · cases hstep
      · cases hstep
  | quit w =>
      rw [GatherPool.step] at hstep
      split at hstep
      · rename_i hworker _
        split at hstep
        · cases hstep
          exact h.quit hworker
        · cases hstep
      · cases hstep
  | close =>
      rw [GatherPool.step] at hstep
      split at hstep
      · rename_i hfree
        cases hstep
        exact h.close hfree
      · cases hstep
  | joined =>
      rw [GatherPool.step] at hstep
      split at hstep
      · rename_i hclosing
        cases hstep
        exact h.joined hclosing.1 hclosing.2
      · cases hstep

end Sound

theorem sound_of_reachable {threads : Nat} {s : State} (h : (system threads).Reachable s) :
    Sound s := by
  refine System.Reachable.invariant ?_ ?_ h
  · intro s hs
    rw [hs.2]
    exact .start hs.1
  · intro s a t hs hstep
    exact hs.step hstep

/-! ### Main results -/

/-- Two ranges have no row in common. -/
def Apart (range other : Int × Int) : Prop := range.2 ≤ other.1 ∨ other.2 ≤ range.1

theorem Call.Covers.exact {call : Call} (h : call.Covers) :
    call.begun.Pairwise Apart ∧ ∀ row, (call.first ≤ row ∧ row < call.last) ↔
      ∃ range ∈ call.begun, range.1 ≤ row ∧ row < range.2 := by
  unfold Call.Covers at h
  split at h
  · obtain ⟨parts, hpartition, hperm⟩ := h
    constructor
    · refine hperm.symm.pairwise ?_ (fun hapart => hapart.symm)
      exact hpartition.pairwise.imp .inl
    · intro row
      constructor
      · intro hrow
        obtain ⟨range, hrange, hin⟩ := hpartition.exists_mem hrow
        exact ⟨range, hperm.mem_iff.mpr hrange, hin⟩
      · rintro ⟨range, hrange, hin⟩
        have hbounds := hpartition.bounds (hperm.mem_iff.mp hrange)
        omega
  · rename_i hempty
    rw [h]
    constructor
    · exact List.Pairwise.nil
    · intro row
      constructor
      · intro hrow
        omega
      · rintro ⟨range, hrange, _⟩
        cases hrange

/-- Whatever callers, workers and `close` do and in whatever order: when a call has returned, it
    ran its function on ranges that are apart and have exactly the rows of its range, each of
    these invocations has ended, none is queued or running, and it throws what its own part
    threw or else what a worker recorded first. -/
theorem returns (threads : Nat) (s : State) (hreach : (system threads).Reachable s) (c : Nat)
    (call : Call) (failure : Option Nat) (hcall : s.calls[c]? = some call)
    (hreturned : call.phase = .returned failure) :
    (call.begun.Pairwise Apart ∧ ∀ row, (call.first ≤ row ∧ row < call.last) ↔
      ∃ range ∈ call.begun, range.1 ≤ row ∧ row < range.2) ∧
    call.begun.Perm (call.ended.map Invocation.range) ∧
    (s.fn ≠ some c ∧ ∀ range, Worker.running c range ∉ s.workers) ∧
    failure = ((driverEnd call.ended).join <|> recorded call.ended) := by
  have h := sound_of_reachable hreach
  have hcomplete := h.calls c call hcall
  rw [Call.Sound, hreturned] at hcomplete
  have hfn : s.fn ≠ some c := by
    intro hfn
    have hlive := (h.live_call hfn hcall).driven.live
    rw [hreturned] at hlive
    cases hlive
  refine ⟨hcomplete.covers.exact, hcomplete.finished, ⟨hfn, ?_⟩, hcomplete.thrown⟩
  intro range hmem
  cases hnone : s.fn with
  | none =>
      have hrunning : range ∈ running s.workers := List.mem_filterMap.mpr ⟨_, hmem, rfl⟩
      rw [(h.quiet hnone).2] at hrunning
      cases hrunning
  | some c' =>
      obtain ⟨_, _, hdispatch⟩ := h.live c' hnone
      rw [hdispatch.mine c range hmem] at hfn
      exact hfn hnone

/-- A worker and then the caller throw. -/
def throwing : List Action :=
  [.call 0 2 1, .enter 0, .publish 0, .take 0, .finish 0 (some 7), .endOwn 0 (some 9), .leave 0]

theorem reachable_throwing : ∃ s call, (system 2).Reachable s ∧ s.calls[0]? = some call ∧
    call.phase = .returned (some 9) ∧ call.ended.findSome? Invocation.thrown = some 7 := by
  have hperform : ∃ s, (system 2).perform throwing (start 2) = some s ∧
      ∃ call, s.calls[0]? = some call ∧ call.phase = .returned (some 9) ∧
        call.ended.findSome? Invocation.thrown = some 7 := by
    decide
  obtain ⟨s, hs, call, hcall, hphase, hthrown⟩ := hperform
  have hstart : (system 2).initial (start 2) := ⟨by decide, rfl⟩
  exact ⟨s, call, System.reachable_of_perform hstart hs, hcall, hphase, hthrown⟩

/-- What was recorded first is not what is thrown. -/
theorem throws_own : ∃ s call failure, (system 2).Reachable s ∧ s.calls[0]? = some call ∧
    call.phase = .returned failure ∧ failure ≠ call.ended.findSome? Invocation.thrown := by
  obtain ⟨s, call, hreach, hcall, hphase, hthrown⟩ := reachable_throwing
  refine ⟨s, call, some 9, hreach, hcall, hphase, ?_⟩
  rw [hthrown]
  decide

theorem returns_throwing : ∃ s call, (system 2).Reachable s ∧ s.calls[0]? = some call ∧
    call.begun.Pairwise Apart ∧ call.begun.Perm (call.ended.map Invocation.range) ∧
    ((driverEnd call.ended).join <|> recorded call.ended) = some 9 := by
  obtain ⟨s, call, hreach, hcall, hphase, _⟩ := reachable_throwing
  obtain ⟨hrows, hended, _, hthrown⟩ := returns 2 s hreach 0 call (some 9) hcall hphase
  exact ⟨s, call, hreach, hcall, hrows.1, hended, hthrown.symm⟩

end SymReloc.GatherPool
