import SymReloc.Runtime.GatherBarrier

/-!
# The size of the parts

`parallelFor` promises parts of at least `minPerWorker` rows.  It divides the rows by this
bound to get the number of parts, and the rows by the number of parts to get their size,
rounded up; the last part is what remains, so the promise is one about this remainder.
-/

namespace SymReloc.GatherPool

/-! ### Shares of one size -/

/-- More than one share of a size: all have at least so many rows exactly when the size has, and
    when what remains for the last one is nothing or has. -/
theorem shares_iff {n size bound : Int} (hsize : 0 < size) (hmore : size < n) :
    (∀ p, 0 ≤ p → p * size < n → bound ≤ min ((p + 1) * size) n - p * size) ↔
      bound ≤ size ∧ (n % size = 0 ∨ bound ≤ n % size) := by
  have hdivide : n / size * size + n % size = n := Int.ediv_mul_add_emod n size
  have hrest : 0 ≤ n % size := Int.emod_nonneg n (by omega)
  have hless : n % size < size := Int.emod_lt_of_pos n hsize
  have hquotient : 0 ≤ n / size := Int.ediv_nonneg (by omega) hsize.le
  constructor
  · intro hall
    constructor
    · have hfirst := hall 0 le_rfl (by omega)
      rw [zero_mul, zero_add, one_mul, min_eq_left hmore.le] at hfirst
      omega
    · by_cases hzero : n % size = 0
      · exact .inl hzero
      · have hlast := hall (n / size) hquotient (by omega)
        rw [add_mul, one_mul, min_eq_right (by omega)] at hlast
        exact .inr (by omega)
  · intro hbounds p hp hlt
    rw [add_mul, one_mul]
    by_cases hfull : p * size + size ≤ n
    · rw [min_eq_left hfull]
      omega
    · -- The last share: its index is the quotient, and it is the remainder.
      have hindex : p = n / size := by
        have hlow : n / size < p + 1 := by
          refine (Int.ediv_lt_iff_lt_mul hsize).mpr ?_
          rw [add_mul, one_mul]
          omega
        have hhigh : p ≤ n / size := (Int.le_ediv_iff_mul_le hsize).mpr hlt.le
        omega
      rw [min_eq_right (by omega), hindex]
      rw [hindex] at hlt
      rcases hbounds.2 with hzero | hbound
      · omega
      · omega

variable {threads : Nat} {first last minPerWorker : Int}

/-- All parts together are as many rows as there are. -/
theorem le_parts_mul_per (hthreads : 1 ≤ threads) (n : Int) :
    n ≤ parts threads n minPerWorker * per threads n minPerWorker := by
  have hpos : 1 ≤ parts threads n minPerWorker := parts_pos hthreads n
  have hlt := Int.lt_mul_ediv_self_add (x := n + parts threads n minPerWorker - 1)
    (show 0 < parts threads n minPerWorker by omega)
  rw [← per] at hlt
  omega

theorem mem_parallelRanges (hthreads : 1 ≤ threads) (hrows : first < last) {range : Int × Int} :
    range ∈ parallelRanges threads first last minPerWorker ↔
      ∃ p, 0 ≤ p ∧ p * per threads (last - first) minPerWorker < last - first ∧
        range = (first + p * per threads (last - first) minPerWorker,
          min (first + (p + 1) * per threads (last - first) minPerWorker) last) := by
  have hper : 0 < per threads (last - first) minPerWorker := per_pos hthreads (by omega)
  have hall : last - first ≤ parts threads (last - first) minPerWorker *
      per threads (last - first) minPerWorker := le_parts_mul_per hthreads _
  have hranges : parallelRanges threads first last minPerWorker =
      ((intRange 0 (parts threads (last - first) minPerWorker)).map fun p =>
        (first + p * per threads (last - first) minPerWorker,
          min (first + (p + 1) * per threads (last - first) minPerWorker) last)).filter
        fun range => range.1 < range.2 := by
    unfold parallelRanges
    exact if_neg (by omega)
  rw [hranges, List.mem_filter, List.mem_map]
  constructor
  · intro hmem
    obtain ⟨⟨p, hp, rfl⟩, hlt⟩ := hmem
    rw [mem_intRange] at hp
    rw [decide_eq_true_eq, lt_min_iff] at hlt
    exact ⟨p, hp.1, by omega, rfl⟩
  · intro hmem
    obtain ⟨p, hp, hlt, rfl⟩ := hmem
    constructor
    · refine ⟨p, mem_intRange.mpr ⟨hp, ?_⟩, rfl⟩
      by_contra hbeyond
      have hmul : parts threads (last - first) minPerWorker *
          per threads (last - first) minPerWorker ≤
            p * per threads (last - first) minPerWorker :=
        mul_le_mul_of_nonneg_right (by omega) hper.le
      omega
    · rw [decide_eq_true_eq, lt_min_iff, add_mul, one_mul]
      omega

/-! ### The condition -/

/-- There is work for one thread only, or the last of the equal shares is full or has rows
    enough. -/
def Granular (threads n minPerWorker : Int) : Prop :=
  let workers := min threads (n / max minPerWorker 1)
  let share := (n + workers - 1) / workers
  workers ≤ 1 ∨ n % share = 0 ∨ minPerWorker ≤ n % share

instance (threads n minPerWorker : Int) : Decidable (Granular threads n minPerWorker) :=
  inferInstanceAs (Decidable (_ ∨ _ ∨ _))

/-- The workers that the rows are enough for are the parts, if there is more than one. -/
theorem parts_eq {n : Int} (h : 1 < min (threads : Int) (n / max minPerWorker 1)) :
    parts threads n minPerWorker = min (threads : Int) (n / max minPerWorker 1) := by
  unfold parts
  omega

/-- Each share has the rows asked for, where all have them. -/
theorem le_per {n : Int} (h : 1 < parts threads n minPerWorker) :
    minPerWorker ≤ per threads n minPerWorker ∧ per threads n minPerWorker < n := by
  have hfew : parts threads n minPerWorker ≤ n / max minPerWorker 1 := by
    unfold parts at h ⊢
    omega
  have hmul : parts threads n minPerWorker * max minPerWorker 1 ≤ n :=
    (Int.le_ediv_iff_mul_le (by omega)).mp hfew
  have hone : parts threads n minPerWorker * 1 ≤
      parts threads n minPerWorker * max minPerWorker 1 :=
    mul_le_mul_of_nonneg_left (by omega) (by omega)
  constructor
  · refine le_trans (le_max_left _ 1) ?_
    rw [per, Int.le_ediv_iff_mul_le (by omega), mul_comm]
    omega
  · rw [per, Int.ediv_lt_iff_lt_mul (by omega)]
    -- Two or more parts of two or more rows: `n + parts ≤ n * parts`.
    have hproduct : 0 ≤ (n - 1) * (parts threads n minPerWorker - 1 - 1) :=
      mul_nonneg (by omega) (by omega)
    have hexpand : (n - 1) * (parts threads n minPerWorker - 1 - 1) =
        n * parts threads n minPerWorker - 2 * n - parts threads n minPerWorker + 2 := by
      ring
    omega

/-- The ranges of a dispatch of more than one. -/
theorem parallelRanges_rows_iff (hthreads : 1 ≤ threads) (hrows : first < last)
    (hmore : 1 < parts threads (last - first) minPerWorker) :
    (∀ range ∈ parallelRanges threads first last minPerWorker,
      minPerWorker ≤ range.2 - range.1) ↔
      (last - first) % per threads (last - first) minPerWorker = 0 ∨
        minPerWorker ≤ (last - first) % per threads (last - first) minPerWorker := by
  have hper : 0 < per threads (last - first) minPerWorker := per_pos hthreads (by omega)
  obtain ⟨hbound, hsize⟩ := le_per hmore
  refine Iff.trans ?_ ((shares_iff hper hsize).trans (and_iff_right hbound))
  constructor
  · intro hall p hp hlt
    have hrange := hall _ ((mem_parallelRanges hthreads hrows).mpr ⟨p, hp, hlt, rfl⟩)
    dsimp only at hrange
    omega
  · intro hall range hrange
    obtain ⟨p, hp, hlt, rfl⟩ := (mem_parallelRanges hthreads hrows).mp hrange
    have hshare := hall p hp hlt
    dsimp only
    omega

/-! ### What a call hands out -/

/-- The ranges that a call has begun, and those that wait for its workers. -/
def State.handed (s : State) (c : Nat) (call : Call) : List (Int × Int) :=
  call.begun ++ if s.fn = some c then queued s.assigned else []

/-- One range or none, or those of a dispatch. -/
def Call.Divided (threads : Nat) (call : Call) (ranges : List (Int × Int)) : Prop :=
  ranges.length ≤ 1 ∨
    ranges.Perm (parallelRanges threads call.first call.last call.minPerWorker)

/-- A call that has returned keeps what it has begun. -/
structure Settled (threads : Nat) (s : State) : Prop where
  sized : s.threads = threads
  returned : ∀ (c : Nat) (call : Call) (failure : Option Nat), s.calls[c]? = some call →
    call.phase = .returned failure → call.Divided threads call.begun

theorem Sound.fn_ne (h : Sound s) {c : Nat} {call : Call} (hcall : s.calls[c]? = some call)
    (hidle : call.phase.live = false) : s.fn ≠ some c := by
  intro hfn
  have hlive := (h.live_call hfn hcall).driven.live
  rw [hidle] at hlive
  cases hlive

theorem Settled.start (threads : Nat) : Settled threads (start threads) where
  sized := rfl
  returned := by
    intro c call failure hcall
    cases hcall

/-- A step that leaves the calls alone. -/
theorem Settled.congr {s t : State} (h : Settled threads s) (hthreads : t.threads = s.threads)
    (hcalls : t.calls = s.calls) : Settled threads t where
  sized := hthreads.trans h.sized
  returned := by
    rw [hcalls]
    exact h.returned

/-- A step that changes one call. -/
theorem Settled.change {s t : State} (h : Settled threads s) {c : Nat} {call call' : Call}
    (hcall : s.calls[c]? = some call) (hthreads : t.threads = s.threads)
    (hcalls : t.calls = s.calls.set c call')
    (hnew : ∀ failure, call'.phase = .returned failure → call'.Divided threads call'.begun) :
    Settled threads t where
  sized := hthreads.trans h.sized
  returned := by
    intro j other failure hother hphase
    rw [hcalls] at hother
    rcases Sound.get_set hcall hother with ⟨_, rfl⟩ | ⟨_, hold⟩
    · exact hnew failure hphase
    · exact h.returned j other failure hold hphase

theorem Settled.arrive {s : State} (h : Settled threads s) (first last minPerWorker : Int) :
    Settled threads { s with calls := s.calls ++ [.arrive s.threads first last minPerWorker] } where
  sized := h.sized
  returned := by
    intro j other failure hother hphase
    dsimp only at hother
    rw [List.getElem?_append] at hother
    split at hother
    · exact h.returned j other failure hother hphase
    · have hnew := List.mem_singleton.mp (List.mem_of_getElem? hother)
      rw [hnew, Call.arrive] at hphase ⊢
      dsimp only at hphase ⊢
      split at hphase
      · rename_i hempty
        rw [if_pos hempty]
        exact .inl (Nat.zero_le 1)
      · split at hphase
        · cases hphase
        · cases hphase

theorem Settled.endOwn {s t : State} (h : Settled threads s) (hsound : Sound s) {c : Nat}
    {call : Call} {thrown : Option Nat} (hcall : s.calls[c]? = some call)
    (hstep : s.endOwn c call thrown = some t) : Settled threads t := by
  unfold State.endOwn at hstep
  split at hstep
  · rename_i locked hphase
    have hcallSound := hsound.calls c call hcall
    rw [Call.Sound, hphase] at hcallSound
    cases hstep
    refine h.change hcall rfl rfl fun failure _ => .inl ?_
    dsimp only
    rw [hcallSound.2.1]
    exact le_rfl
  · cases hstep
    refine h.change hcall rfl rfl fun failure hphase => ?_
    cases hphase
  · cases hstep

theorem Settled.step {s t : State} (h : Settled threads s) (hsound : Sound s) {a : Action}
    (hstep : GatherPool.step s a = some t) : Settled threads t := by
  cases a with
  | call first last minPerWorker =>
      rw [GatherPool.step] at hstep
      split at hstep
      · cases hstep
        exact h.arrive first last minPerWorker
      · cases hstep
  | enter c =>
      rw [GatherPool.step] at hstep
      split at hstep
      · rename_i call hcall
        split at hstep
        · cases hstep
          refine h.change hcall rfl rfl fun failure hphase => ?_
          split at hphase
          · cases hphase
          · cases hphase
        · cases hstep
      · cases hstep
  | publish c =>
      rw [GatherPool.step] at hstep
      split at hstep
      · rename_i call hcall
        split at hstep
        · cases hstep
          refine h.change hcall rfl rfl fun failure hphase => ?_
          cases hphase
        · cases hstep
      · cases hstep
  | endOwn c thrown =>
      rw [GatherPool.step] at hstep
      split at hstep
      · rename_i call hcall
        exact h.endOwn hsound hcall hstep
      · cases hstep
  | leave c =>
      rw [GatherPool.step] at hstep
      split at hstep
      · rename_i call hcall
        split at hstep
        · rename_i barrier hphase
          split at hstep
          · rename_i hdone
            cases hstep
            -- Nothing waits any more: what was begun is all of the dispatch.
            have hfn : s.fn = some c := (hsound.calls c call hcall).fn (by rw [hphase]; rfl)
            have hdispatch := hsound.live_call hfn hcall
            have hspread := hdispatch.spread
            rw [(hdispatch.settled hdone).1, List.append_nil, h.sized] at hspread
            exact h.change hcall rfl rfl fun failure _ => .inr hspread
          · cases hstep
        · cases hstep
      · cases hstep
  | take w =>
      rw [GatherPool.step] at hstep
      split at hstep
      · rename_i range c hworker hassigned hfn
        split at hstep
        · rename_i call hcall
          split at hstep
          · cases hstep
            refine h.change hcall rfl rfl fun failure hphase => ?_
            have hlive := (hsound.live_call hfn hcall).driven.live
            have hreturned : call.phase = .returned failure := hphase
            rw [hreturned] at hlive
            cases hlive
          · cases hstep
        · cases hstep
      · cases hstep
  | finish w thrown =>
      rw [GatherPool.step] at hstep
      split at hstep
      · rename_i c range hworker
        split at hstep
        · rename_i call hcall
          cases hstep
          exact h.change hcall rfl rfl fun failure hphase => h.returned c call failure hcall hphase
        · cases hstep
      · cases hstep
  | quit w =>
      rw [GatherPool.step] at hstep
      split at hstep
      · split at hstep
        · cases hstep
          exact h.congr rfl rfl
        · cases hstep
      · cases hstep
  | close =>
      rw [GatherPool.step] at hstep
      split at hstep
      · cases hstep
        split
        · exact h
        · exact h.congr rfl rfl
      · cases hstep
  | joined =>
      rw [GatherPool.step] at hstep
      split at hstep
      · cases hstep
        exact h.congr rfl rfl
      · cases hstep

theorem settled_of_reachable {s : State} (h : (system threads).Reachable s) :
    Settled threads s := by
  refine System.Run.invariant_with (fun _ => sound_of_reachable) ?_ ?_ h
  · intro s hs
    rw [hs.2]
    exact .start threads
  · intro s a t hsound _ hs _ hstep
    exact hs.step hsound hstep

/-- In every phase a call has handed out one range at most, or those of a dispatch. -/
theorem Settled.divided {s : State} (h : Settled threads s) (hsound : Sound s) {c : Nat}
    {call : Call} (hcall : s.calls[c]? = some call) : call.Divided threads (s.handed c call) := by
  have hcallSound := hsound.calls c call hcall
  unfold Call.Sound at hcallSound
  unfold State.handed
  cases hphase : call.phase with
  | alone locked =>
      rw [hphase] at hcallSound
      rw [if_neg (hsound.fn_ne hcall (by rw [hphase]; rfl)), hcallSound.2.1]
      exact .inl le_rfl
  | queued =>
      rw [hphase] at hcallSound
      rw [if_neg (hsound.fn_ne hcall (by rw [hphase]; rfl)), hcallSound.2.1]
      exact .inl (Nat.zero_le 1)
  | entered =>
      rw [hphase] at hcallSound
      rw [if_neg (hsound.fn_ne hcall (by rw [hphase]; rfl)), hcallSound.2.1]
      exact .inl (Nat.zero_le 1)
  | own =>
      rw [hphase] at hcallSound
      rw [if_pos hcallSound]
      exact .inr (h.sized ▸ (hsound.live_call hcallSound hcall).spread)
  | barrier failure =>
      rw [hphase] at hcallSound
      rw [if_pos hcallSound]
      exact .inr (h.sized ▸ (hsound.live_call hcallSound hcall).spread)
  | returned failure =>
      rw [if_neg (hsound.fn_ne hcall (by rw [hphase]; rfl)), List.append_nil]
      exact h.returned c call failure hcall hphase

/-! ### Main results -/

/-- `call` is a call of `parallelFor` with these arguments. -/
def Call.Asks (call : Call) (first last minPerWorker : Int) : Prop :=
  call.first = first ∧ call.last = last ∧ call.minPerWorker = minPerWorker

/-- What `parallelFor` promises of its parts, on every pool of so many threads: it can be
    called, its parts make up the range, and if there is more than one then each has
    `minPerWorker` rows. -/
structure Grains (threads : Nat) (first last minPerWorker : Int) : Prop where
  taken : ∀ s, (system threads).Reachable s →
    ∃ t, step s (.call first last minPerWorker) = some t
  covers : ∀ (s : State) (c : Nat) (call : Call) (failure : Option Nat),
    (system threads).Reachable s → s.calls[c]? = some call →
    call.Asks first last minPerWorker → call.phase = .returned failure →
    call.begun.Pairwise Apart ∧ ∀ row, (first ≤ row ∧ row < last) ↔
      ∃ range ∈ call.begun, range.1 ≤ row ∧ row < range.2
  rows : ∀ (s : State) (c : Nat) (call : Call), (system threads).Reachable s →
    s.calls[c]? = some call → call.Asks first last minPerWorker → 1 < (s.handed c call).length →
    ∀ range ∈ s.handed c call, minPerWorker ≤ range.2 - range.1

theorem one_lt_length_iff (hthreads : 1 ≤ threads) (hrows : first < last) :
    1 < (parallelRanges threads first last minPerWorker).length ↔
      1 < parts threads (last - first) minPerWorker := by
  have hpos : 1 ≤ parts threads (last - first) minPerWorker := parts_pos hthreads _
  constructor
  · intro hmore
    by_contra hone
    have heq : parts threads (last - first) minPerWorker = 1 := by omega
    have hempty : intRange 1 1 = [] := rfl
    have hrest : queued (rest threads first last minPerWorker) = [] := by
      simp only [rest, heq, hempty, List.map_nil, List.cons_append, List.nil_append]
      rw [queued, List.filter_cons_of_neg (by decide), ← queued, queued_replicate]
    rw [← own_queued hthreads hrows, hrest] at hmore
    exact absurd hmore (by simp)
  · intro hmore
    obtain ⟨-, hsize⟩ := le_per hmore
    have hper : 0 < per threads (last - first) minPerWorker := per_pos hthreads (by omega)
    have hmem : ∀ p, 0 ≤ p → p * per threads (last - first) minPerWorker < last - first →
        (first + p * per threads (last - first) minPerWorker,
          min (first + (p + 1) * per threads (last - first) minPerWorker) last) ∈
            parallelRanges threads first last minPerWorker := fun p hp hlt =>
      (mem_parallelRanges hthreads hrows).mpr ⟨p, hp, hlt, rfl⟩
    have hzero := hmem 0 le_rfl (by omega)
    have hone := hmem 1 (by decide) (by omega)
    -- The first two ranges do not begin at the same row.
    by_contra hfew
    have hpositive := List.length_pos_of_mem hzero
    obtain ⟨only, honly⟩ := List.length_eq_one_iff.mp (show
      (parallelRanges threads first last minPerWorker).length = 1 by omega)
    rw [honly, List.mem_singleton] at hzero hone
    have hfirst := congrArg Prod.fst (hzero.trans hone.symm)
    dsimp only at hfirst
    omega

/-- The condition says it of the ranges of a dispatch. -/
theorem granular_iff (hthreads : 1 ≤ threads) (hrows : first < last) :
    Granular threads (last - first) minPerWorker ↔
      (1 < (parallelRanges threads first last minPerWorker).length →
        ∀ range ∈ parallelRanges threads first last minPerWorker,
          minPerWorker ≤ range.2 - range.1) := by
  rw [one_lt_length_iff hthreads hrows]
  by_cases hmore : 1 < parts threads (last - first) minPerWorker
  · have hworkers : 1 < min (threads : Int) ((last - first) / max minPerWorker 1) := by
      unfold parts at hmore
      omega
    have heq := parts_eq hworkers
    rw [parallelRanges_rows_iff hthreads hrows hmore, Granular, ← heq, ← per]
    constructor
    · intro hgranular _
      exact hgranular.resolve_left (by omega)
    · intro hrest
      exact .inr (hrest hmore)
  · refine iff_of_true (.inl ?_) (fun h => absurd h hmore)
    unfold parts at hmore
    omega

/-- Three steps lead to a call that has handed out the ranges of its dispatch. -/
theorem exists_dispatched (hthreads : 1 ≤ threads)
    (hdefined : Defined threads first last minPerWorker) (hrows : first < last)
    (hmore : 1 < (parallelRanges threads first last minPerWorker).length) :
    ∃ s call, (system threads).Reachable s ∧ s.calls[0]? = some call ∧
      call.Asks first last minPerWorker ∧
      s.handed 0 call = parallelRanges threads first last minPerWorker := by
  have hqueued : queued (rest threads first last minPerWorker) ≠ [] := by
    intro hempty
    rw [← own_queued hthreads hrows, hempty] at hmore
    exact absurd hmore (by simp)
  have harrive : Call.arrive threads first last minPerWorker =
      { first, last, minPerWorker, phase := .queued, begun := [], ended := [] } := by
    unfold Call.arrive
    rw [if_neg (by omega), if_neg hqueued]
  have hstart : (system threads).initial (start threads) := ⟨hthreads, rfl⟩
  have hperform : (system threads).perform
      [.call first last minPerWorker, .enter 0, .publish 0] (start threads) = some
        { start threads with
          driver := some (.call 0)
          fn := some 0
          assigned := rest threads first last minPerWorker
          outstanding := (queued (rest threads first last minPerWorker)).length
          calls := [{ first, last, minPerWorker, phase := .own,
                      begun := [own threads first last minPerWorker], ended := [] }] } := by
    have hcall : step (start threads) (.call first last minPerWorker) =
        some { start threads with calls := [.arrive threads first last minPerWorker] } :=
      if_pos hdefined
    simp only [System.perform, system, hcall, harrive]
    rfl
  refine ⟨_, _, System.reachable_of_perform hstart hperform, rfl, ⟨rfl, rfl, rfl⟩, ?_⟩
  rw [State.handed, if_pos rfl, ← own_queued hthreads hrows]
  rfl

end SymReloc.GatherPool
