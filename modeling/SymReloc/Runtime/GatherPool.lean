import SymReloc.Dispatch.StreamedRows

/-!
# The gather pool

`GatherPool`: workers that take parts of a range, calls of `parallelFor` that publish these
parts one call at a time, and `close`, which ends the workers.  A step is what one thread
does while it holds a mutex, or the end of an invocation; what an invocation throws is a part
of the action.
-/

namespace SymReloc.GatherPool

/-! ### The parts of a range -/

/-- How many parts a range of `n` rows has. -/
def parts (threads n minPerWorker : Int) : Int := min threads (max 1 (n / max minPerWorker 1))

/-- The rows of a part, rounded up. -/
def per (threads n minPerWorker : Int) : Int :=
  (n + parts threads n minPerWorker - 1) / parts threads n minPerWorker

/-- The part at an index, or an empty range. -/
def part (first last per p : Int) : Int × Int :=
  let b := first + p * per
  let e := min (first + (p + 1) * per) last
  if b < e then (b, e) else (0, 0)

/-- `rest`: what each worker gets; the caller, at index zero, keeps the first part. -/
def rest (threads : Nat) (first last minPerWorker : Int) : List (Int × Int) :=
  let n := last - first
  (0, 0) :: (intRange 1 (parts threads n minPerWorker)).map
      (part first last (per threads n minPerWorker)) ++
    List.replicate (threads - (parts threads n minPerWorker).toNat) (0, 0)

/-- The caller's part. -/
def own (threads first last minPerWorker : Int) : Int × Int :=
  (first, min (first + per threads (last - first) minPerWorker) last)

/-- Whether a worker has a range. -/
def pending (range : Int × Int) : Bool := range.1 < range.2

/-- The ranges that wait for their workers. -/
def queued (assigned : List (Int × Int)) : List (Int × Int) := assigned.filter pending

def inInt64 (x : Int) : Prop := -2 ^ 63 ≤ x ∧ x < 2 ^ 63

instance (x : Int) : Decidable (inInt64 x) := inferInstanceAs (Decidable (_ ∧ _))

/-- The arithmetic of the parts stays in 64 bits; beyond them the call has no meaning. -/
def Defined (threads : Nat) (first last minPerWorker : Int) : Prop :=
  let n := last - first
  inInt64 n ∧ (0 < n →
    inInt64 (n + parts threads n minPerWorker - 1) ∧
    ∀ p ∈ intRange 0 (parts threads n minPerWorker),
      inInt64 ((p + 1) * per threads n minPerWorker) ∧
      inInt64 (first + (p + 1) * per threads n minPerWorker))

instance (threads : Nat) (first last minPerWorker : Int) :
    Decidable (Defined threads first last minPerWorker) :=
  inferInstanceAs (Decidable (_ ∧ (_ → _)))

/-! ### State -/

/-- Where a call of `parallelFor` is.  `alone` runs the whole range, under the drivers' mutex or
    not; `own` runs the caller's part, and `barrier` waits for the workers with what that part
    threw. -/
inductive Phase where
  | alone (locked : Bool)
  | queued
  | entered
  | own
  | barrier (failure : Option Nat)
  | returned (failure : Option Nat)
deriving DecidableEq, Repr

/-- An invocation that ended. -/
structure Invocation where
  range : Int × Int
  byDriver : Bool
  thrown : Option Nat
deriving DecidableEq, Repr

/-- `begun` and `ended`, in the order in which they did, are history. -/
structure Call where
  first : Int
  last : Int
  minPerWorker : Int
  phase : Phase
  begun : List (Int × Int)
  ended : List Invocation
deriving DecidableEq, Repr

inductive Worker where
  | idle
  | running (call : Nat) (range : Int × Int)
  | exited
deriving DecidableEq, Repr

/-- Who holds `driverMu_`. -/
inductive Owner where
  | call (c : Nat)
  | close
deriving DecidableEq, Repr

/-- `fn` is the call whose function is live. -/
structure State where
  threads : Nat
  closed : Bool
  stop : Bool
  driver : Option Owner
  fn : Option Nat
  assigned : List (Int × Int)
  outstanding : Nat
  failure : Option Nat
  workers : List Worker
  calls : List Call
deriving DecidableEq, Repr

def start (threads : Nat) : State where
  threads := threads
  closed := false
  stop := false
  driver := none
  fn := none
  assigned := List.replicate threads (0, 0)
  outstanding := 0
  failure := none
  workers := List.replicate (threads - 1) .idle
  calls := []

/-! ### Steps -/

/-- A call as it comes to where it waits for the drivers' mutex, or where it needs none. -/
def Call.arrive (threads : Nat) (first last minPerWorker : Int) : Call :=
  let idle : Call :=
    { first, last, minPerWorker, phase := .returned none, begun := [], ended := [] }
  if last - first ≤ 0 then idle
  else if queued (rest threads first last minPerWorker) = [] then
    { idle with phase := .alone false, begun := [(first, last)] }
  else { idle with phase := .queued }

namespace State

def setCall (s : State) (c : Nat) (call : Call) : State := { s with calls := s.calls.set c call }

/-- The drivers' mutex is free: a closed pool leaves all to the caller. -/
def enter (s : State) (c : Nat) (call : Call) : State :=
  { s with
    driver := some (.call c)
    calls := s.calls.set c
      (if s.closed then { call with phase := .alone true, begun := [(call.first, call.last)] }
        else { call with phase := .entered }) }

/-- Hand the parts to the workers, and go on with the own one. -/
def publish (s : State) (c : Nat) (call : Call) : State :=
  let parts := rest s.threads call.first call.last call.minPerWorker
  { s with
    fn := some c
    assigned := parts
    outstanding := (queued parts).length
    failure := none
    calls := s.calls.set c
      { call with
        phase := .own
        begun := [own s.threads call.first call.last call.minPerWorker] } }

/-- The caller's invocation ends. -/
def endOwn (s : State) (c : Nat) (call : Call) (thrown : Option Nat) : Option State :=
  match call.phase with
  | .alone locked =>
      some { s with
        driver := if locked then none else s.driver
        calls := s.calls.set c
          { call with
            phase := .returned thrown
            ended := call.ended ++ [⟨(call.first, call.last), true, thrown⟩] } }
  | .own =>
      some (s.setCall c
        { call with
          phase := .barrier thrown
          ended := call.ended ++
            [⟨own s.threads call.first call.last call.minPerWorker, true, thrown⟩] })
  | _ => none

/-- Past the barrier: what the caller's part threw, else what was recorded first. -/
def leave (s : State) (c : Nat) (call : Call) (failure : Option Nat) : State :=
  { s with
    driver := none
    fn := none
    failure := none
    calls := s.calls.set c { call with phase := .returned (failure <|> s.failure) } }

/-- A worker takes its range. -/
def take (s : State) (w c : Nat) (call : Call) (range : Int × Int) : State :=
  { s with
    assigned := s.assigned.set (w + 1) (0, 0)
    workers := s.workers.set w (.running c range)
    calls := s.calls.set c { call with begun := call.begun ++ [range] } }

/-- A worker's invocation ends; the first failure is recorded. -/
def finish (s : State) (w c : Nat) (call : Call) (range : Int × Int) (thrown : Option Nat) :
    State :=
  { s with
    failure := s.failure <|> thrown
    outstanding := s.outstanding - 1
    workers := s.workers.set w .idle
    calls := s.calls.set c { call with ended := call.ended ++ [⟨range, false, thrown⟩] } }

end State

inductive Action where
  | call (first last minPerWorker : Int)
  | enter (c : Nat)
  | publish (c : Nat)
  | endOwn (c : Nat) (thrown : Option Nat)
  | leave (c : Nat)
  | take (w : Nat)
  | finish (w : Nat) (thrown : Option Nat)
  | quit (w : Nat)
  | close
  | joined
deriving DecidableEq, Repr

def step (s : State) : Action → Option State
  | .call first last minPerWorker =>
      if Defined s.threads first last minPerWorker then
        some { s with calls := s.calls ++ [.arrive s.threads first last minPerWorker] }
      else none
  | .enter c =>
      match s.calls[c]? with
      | some call =>
          if call.phase = .queued ∧ s.driver = none then some (s.enter c call) else none
      | none => none
  | .publish c =>
      match s.calls[c]? with
      | some call => if call.phase = .entered then some (s.publish c call) else none
      | none => none
  | .endOwn c thrown =>
      match s.calls[c]? with
      | some call => s.endOwn c call thrown
      | none => none
  | .leave c =>
      match s.calls[c]? with
      | some call =>
          match call.phase with
          | .barrier failure => if s.outstanding = 0 then some (s.leave c call failure) else none
          | _ => none
      | none => none
  | .take w =>
      match s.workers[w]?, s.assigned[w + 1]?, s.fn with
      | some .idle, some range, some c =>
          match s.calls[c]? with
          | some call => if pending range then some (s.take w c call range) else none
          | none => none
      | _, _, _ => none
  | .finish w thrown =>
      match s.workers[w]? with
      | some (.running c range) =>
          match s.calls[c]? with
          | some call => some (s.finish w c call range thrown)
          | none => none
      | _ => none
  | .quit w =>
      match s.workers[w]?, s.assigned[w + 1]? with
      | some .idle, some range =>
          if s.stop = true ∧ pending range = false then
            some { s with workers := s.workers.set w .exited }
          else none
      | _, _ => none
  | .close =>
      if s.driver = none then
        some (if s.closed then s else { s with stop := true, driver := some .close })
      else none
  | .joined =>
      if s.driver = some .close ∧ ∀ w ∈ s.workers, w = .exited then
        some { s with driver := none, closed := true, workers := [] }
      else none

/-- A pool of so many threads, the caller's among them. -/
def system (threads : Nat) : System State Action where
  initial := fun s => 1 ≤ threads ∧ s = start threads
  step := step

/-! ### The parts make up the range -/

variable {threads : Nat} {first last minPerWorker : Int}

theorem parts_pos (hthreads : 1 ≤ threads) (n : Int) : 1 ≤ parts threads n minPerWorker := by
  unfold parts
  omega

theorem parts_le (n : Int) : parts threads n minPerWorker ≤ threads := by
  unfold parts
  omega

theorem per_pos (hthreads : 1 ≤ threads) {n : Int} (hn : 0 < n) :
    0 < per threads n minPerWorker := by
  have hparts : 1 ≤ parts threads n minPerWorker := parts_pos hthreads n
  exact Int.lt_iff_add_one_le.mpr ((Int.le_ediv_iff_mul_le (by omega)).mpr (by omega))

theorem length_rest (hthreads : 1 ≤ threads) :
    (rest threads first last minPerWorker).length = threads := by
  have hpos : 1 ≤ parts threads (last - first) minPerWorker := parts_pos hthreads _
  have hle : parts threads (last - first) minPerWorker ≤ threads := parts_le _
  simp only [rest, List.length_append, List.length_cons, List.length_map, List.length_replicate,
    intRange, List.length_range]
  omega

theorem queued_append (left right : List (Int × Int)) :
    queued (left ++ right) = queued left ++ queued right := List.filter_append _ _

theorem queued_replicate (n : Nat) : queued (List.replicate n (0, 0)) = [] :=
  List.filter_eq_nil_iff.mpr fun range hrange => by
    rw [List.eq_of_mem_replicate hrange]
    decide

/-- Empty parts are as none. -/
theorem queued_map_part (first last per : Int) (indices : List Int) :
    queued (indices.map (part first last per)) =
      (indices.map fun p => (first + p * per, min (first + (p + 1) * per) last)).filter
        fun range => range.1 < range.2 := by
  induction indices with
  | nil => rfl
  | cons p indices ih =>
      rw [List.map_cons, List.map_cons, queued, List.filter_cons, ← queued, ih, List.filter_cons]
      by_cases hlt : first + p * per < min (first + (p + 1) * per) last
      · have hpart : part first last per p = (first + p * per, min (first + (p + 1) * per) last) :=
          if_pos hlt
        have hpending : pending (first + p * per, min (first + (p + 1) * per) last) = true :=
          decide_eq_true hlt
        rw [hpart, if_pos hpending, if_pos (decide_eq_true hlt)]
      · have hpart : part first last per p = (0, 0) := if_neg hlt
        rw [hpart, if_neg (by decide), if_neg (by simpa using hlt)]

/-- The caller's part and those of the workers are the ranges of the dispatch. -/
theorem own_queued (hthreads : 1 ≤ threads) (hrows : first < last) :
    own threads first last minPerWorker :: queued (rest threads first last minPerWorker) =
      parallelRanges threads first last minPerWorker := by
  have hpos : 1 ≤ parts threads (last - first) minPerWorker := parts_pos hthreads _
  have hper : 0 < per threads (last - first) minPerWorker := per_pos hthreads (by omega)
  have hranges : parallelRanges threads first last minPerWorker =
      ((intRange 0 (parts threads (last - first) minPerWorker)).map fun p =>
        (first + p * per threads (last - first) minPerWorker,
          min (first + (p + 1) * per threads (last - first) minPerWorker) last)).filter
        fun range => range.1 < range.2 := by
    unfold parallelRanges
    exact if_neg (by omega)
  have hsplit : intRange 0 (parts threads (last - first) minPerWorker) =
      0 :: intRange 1 (parts threads (last - first) minPerWorker) := by
    rw [intRange_append 1 (by omega) hpos]
    exact congrArg (· ++ _) (intRange_one 0)
  have hrest : queued (rest threads first last minPerWorker) =
      queued ((intRange 1 (parts threads (last - first) minPerWorker)).map
        (part first last (per threads (last - first) minPerWorker))) := by
    simp only [rest, List.cons_append]
    rw [queued, List.filter_cons_of_neg (by decide), ← queued, queued_append, queued_replicate,
      List.append_nil]
  rw [hranges, hsplit, hrest, queued_map_part, List.map_cons, List.filter_cons_of_pos]
  · rw [own, zero_mul, add_zero, zero_add, one_mul]
  · simp only [zero_mul, add_zero, zero_add, one_mul, decide_eq_true_eq]
    omega

end SymReloc.GatherPool
