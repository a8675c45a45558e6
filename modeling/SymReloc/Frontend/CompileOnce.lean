import SymReloc.Frontend.ArtifactCache

/-!
# One compile for a key

Three things hold of every state of an artifact cache.  `Held`: the pending keys are those of
the calls that compile, one call a key.  `Told`: every artifact, rejection and returned result
is what came of a compile of its key.  `Tabled`: the tables are in their bounds and have no key
in common, nor one that is pending.

Whether a caller that has waited finds what it waited for depends on the other keys: the
result may be gone before the caller looks again.
-/

namespace SymReloc.ArtifactCache

open OrderedTable

variable {κ ν ρ ε : Type} {calls calls' : List (Call κ ν ρ ε)} {pending : List κ} {c : Nat}
  {call call' : Call κ ν ρ ε} {key : κ} {result : Result ν ρ ε}

/-! ### Calls -/

@[simp] theorem key_notified (call : Call κ ν ρ ε) : call.notified.key = call.key := by
  unfold Call.notified
  split <;> rfl

@[simp] theorem compile_notified (call : Call κ ν ρ ε) : call.notified.compile = call.compile := by
  unfold Call.notified
  split <;> rfl

@[simp] theorem waited_notified (call : Call κ ν ρ ε) : call.notified.waited = call.waited := by
  unfold Call.notified
  split <;> rfl

@[simp] theorem holds_notified (call : Call κ ν ρ ε) : call.notified.holds = call.holds := by
  unfold Call.notified
  split
  · rename_i hphase
    rw [Call.holds, Call.holds, hphase]
  · rfl

theorem phase_notified (call : Call κ ν ρ ε) :
    (call.phase = .waiting ∧ call.notified.phase = .entering) ∨
      (call.phase ≠ .waiting ∧ call.notified = call) := by
  unfold Call.notified
  split
  · rename_i hphase
    exact .inl ⟨hphase, rfl⟩
  · rename_i hphase
    exact .inr ⟨hphase, rfl⟩

/-- A call that was set, or another one. -/
theorem get_set (hcall : calls[c]? = some call) {j : Nat} {other : Call κ ν ρ ε}
    (h : (calls.set c call')[j]? = some other) :
    (j = c ∧ other = call') ∨ (j ≠ c ∧ calls[j]? = some other) := by
  by_cases hj : c = j
  · subst hj
    rw [List.getElem?_set_self (List.getElem?_eq_some_iff.mp hcall).1, Option.some.injEq] at h
    exact .inl ⟨rfl, h.symm⟩
  · rw [List.getElem?_set_ne hj] at h
    exact .inr ⟨Ne.symm hj, h⟩

theorem set_self (hcall : calls[c]? = some call) : (calls.set c call')[c]? = some call' :=
  List.getElem?_set_self (List.getElem?_eq_some_iff.mp hcall).1

/-! ### The pending keys -/

structure Held (calls : List (Call κ ν ρ ε)) (pending : List κ) : Prop where
  marked : ∀ (c : Nat) (call : Call κ ν ρ ε), calls[c]? = some call → call.holds = true →
    call.key ∈ pending
  owned : ∀ key ∈ pending, ∃ (c : Nat) (call : Call κ ν ρ ε), calls[c]? = some call ∧
    call.key = key ∧ call.holds = true
  single : ∀ (c c' : Nat) (call call' : Call κ ν ρ ε), calls[c]? = some call →
    calls[c']? = some call' → call.holds = true → call'.holds = true → call.key = call'.key →
    c = c'
  waits : ∀ call ∈ calls, call.phase = .waiting → call.key ∈ pending

theorem Held.change (h : Held calls pending) (hcall : calls[c]? = some call)
    (hkey : call'.key = call.key) (hholds : call'.holds = call.holds)
    (hwaits : call'.phase = .waiting → call.key ∈ pending) :
    Held (calls.set c call') pending where
  marked := by
    intro j other hother hheld
    rcases get_set hcall hother with ⟨-, rfl⟩ | ⟨-, hold⟩
    · rw [hkey]
      exact h.marked c call hcall (hholds ▸ hheld)
    · exact h.marked j other hold hheld
  owned := by
    intro key hpending
    obtain ⟨j, other, hother, hsame, hheld⟩ := h.owned key hpending
    by_cases hj : c = j
    · subst hj
      rw [hcall, Option.some.injEq] at hother
      subst hother
      exact ⟨c, call', set_self hcall, hkey.trans hsame, hholds.trans hheld⟩
    · exact ⟨j, other, by rw [List.getElem?_set_ne hj]; exact hother, hsame, hheld⟩
  single := by
    intro i j left right hleft hright hheld hheld' hsame
    rcases get_set hcall hleft with ⟨rfl, rfl⟩ | ⟨-, hold⟩
    · rcases get_set hcall hright with ⟨rfl, rfl⟩ | ⟨-, hold'⟩
      · rfl
      · exact h.single i j call right hcall hold' (hholds ▸ hheld) hheld' (hkey ▸ hsame)
    · rcases get_set hcall hright with ⟨rfl, rfl⟩ | ⟨-, hold'⟩
      · exact h.single i j left call hold hcall hheld (hholds ▸ hheld') (hkey ▸ hsame)
      · exact h.single i j left right hold hold' hheld hheld' hsame
  waits := by
    intro other hother hphase
    rcases List.mem_or_eq_of_mem_set hother with hold | rfl
    · exact h.waits other hold hphase
    · rw [hkey]
      exact hwaits hphase

theorem Held.append (h : Held calls pending) (hholds : call.holds = false)
    (hphase : call.phase ≠ .waiting) : Held (calls ++ [call]) pending := by
  have hnew : ∀ {j : Nat} {other : Call κ ν ρ ε}, (calls ++ [call])[j]? = some other →
      other.holds = true → calls[j]? = some other := by
    intro j other hother hheld
    rw [List.getElem?_append] at hother
    split at hother
    · exact hother
    · rw [List.mem_singleton.mp (List.mem_of_getElem? hother), hholds] at hheld
      cases hheld
  refine ⟨fun j other hother hheld => h.marked j other (hnew hother hheld) hheld, ?_, ?_, ?_⟩
  · intro key hpending
    obtain ⟨j, other, hother, hsame, hheld⟩ := h.owned key hpending
    refine ⟨j, other, ?_, hsame, hheld⟩
    rw [List.getElem?_append_left (List.getElem?_eq_some_iff.mp hother).1]
    exact hother
  · intro i j left right hleft hright hheld hheld'
    exact h.single i j left right (hnew hleft hheld) (hnew hright hheld') hheld hheld'
  · intro other hother hwaiting
    rcases List.mem_append.mp hother with hold | hself
    · exact h.waits other hold hwaiting
    · rw [List.mem_singleton.mp hself] at hwaiting
      exact absurd hwaiting hphase

/-- A compile of a key that is not pending starts. -/
theorem Held.start (h : Held calls pending) (hcall : calls[c]? = some call)
    (hkey : call'.key = call.key) (hholds : call'.holds = true)
    (hphase : call'.phase ≠ .waiting) (hfree : call.key ∉ pending) :
    Held (calls.set c call') (call.key :: pending) where
  marked := by
    intro j other hother hheld
    rcases get_set hcall hother with ⟨-, rfl⟩ | ⟨-, hold⟩
    · rw [hkey]
      exact List.mem_cons_self
    · exact List.mem_cons_of_mem _ (h.marked j other hold hheld)
  owned := by
    intro key hpending
    rcases List.mem_cons.mp hpending with rfl | hold
    · exact ⟨c, call', set_self hcall, hkey, hholds⟩
    · obtain ⟨j, other, hother, hsame, hheld⟩ := h.owned key hold
      have hj : c ≠ j := by
        intro hcj
        subst hcj
        rw [hcall, Option.some.injEq] at hother
        subst hother
        exact hfree (hsame ▸ hold)
      exact ⟨j, other, by rw [List.getElem?_set_ne hj]; exact hother, hsame, hheld⟩
  single := by
    intro i j left right hleft hright hheld hheld' hsame
    rcases get_set hcall hleft with ⟨rfl, rfl⟩ | ⟨-, hold⟩
    · rcases get_set hcall hright with ⟨rfl, rfl⟩ | ⟨-, hold'⟩
      · rfl
      · have hmarked := h.marked j right hold' hheld'
        rw [← hsame, hkey] at hmarked
        exact absurd hmarked hfree
    · rcases get_set hcall hright with ⟨rfl, rfl⟩ | ⟨-, hold'⟩
      · have hmarked := h.marked i left hold hheld
        rw [hsame, hkey] at hmarked
        exact absurd hmarked hfree
      · exact h.single i j left right hold hold' hheld hheld' hsame
  waits := by
    intro other hother hwaiting
    rcases List.mem_or_eq_of_mem_set hother with hold | rfl
    · exact List.mem_cons_of_mem _ (h.waits other hold hwaiting)
    · exact absurd hwaiting hphase

/-- The compile of a key is published: its mark goes, and all waiters are woken. -/
theorem Held.publish [DecidableEq κ] (h : Held calls pending) (hcall : calls[c]? = some call)
    (hheld : call.holds = true) (hholds : call'.holds = false) :
    Held ((calls.set c call').map Call.notified) (pending.filter fun key => key ≠ call.key) := by
  have hnew : ∀ {j : Nat} {other : Call κ ν ρ ε},
      ((calls.set c call').map Call.notified)[j]? = some other → other.holds = true →
      ∃ old, j ≠ c ∧ calls[j]? = some old ∧ other = old.notified ∧ old.holds = true := by
    intro j other hother hholding
    rw [List.getElem?_map, Option.map_eq_some_iff] at hother
    obtain ⟨old, hold, rfl⟩ := hother
    rw [holds_notified] at hholding
    rcases get_set hcall hold with ⟨-, rfl⟩ | ⟨hj, hold⟩
    · rw [hholds] at hholding
      cases hholding
    · exact ⟨old, hj, hold, rfl, hholding⟩
  refine ⟨?_, ?_, ?_, ?_⟩
  · intro j other hother hotherHolds
    obtain ⟨old, hj, hold, rfl, hholding⟩ := hnew hother hotherHolds
    rw [key_notified, List.mem_filter]
    refine ⟨h.marked j old hold hholding, decide_eq_true fun hsame => hj ?_⟩
    exact h.single j c old call hold hcall hholding hheld hsame
  · intro key hpending
    rw [List.mem_filter, decide_eq_true_eq] at hpending
    obtain ⟨j, other, hother, hsame, hholding⟩ := h.owned key hpending.1
    have hj : c ≠ j := by
      intro hcj
      subst hcj
      rw [hcall, Option.some.injEq] at hother
      subst hother
      exact hpending.2 hsame.symm
    refine ⟨j, other.notified, ?_, by rw [key_notified, hsame], by rw [holds_notified, hholding]⟩
    rw [List.getElem?_map, List.getElem?_set_ne hj, hother]
    rfl
  · intro i j left right hleft hright hleftHolds hrightHolds hsame
    obtain ⟨old, -, hold, rfl, hholding⟩ := hnew hleft hleftHolds
    obtain ⟨old', -, hold', rfl, hholding'⟩ := hnew hright hrightHolds
    rw [key_notified, key_notified] at hsame
    exact h.single i j old old' hold hold' hholding hholding' hsame
  · intro other hother hwaiting
    obtain ⟨old, -, rfl⟩ := List.mem_map.mp hother
    rcases phase_notified old with ⟨-, hentering⟩ | ⟨hphase, hself⟩
    · rw [hentering] at hwaiting
      cases hwaiting
    · rw [hself] at hwaiting
      exact absurd hwaiting hphase

/-! ### What came of the compiles -/

/-- A compile of the key ended so. -/
def Ended (calls : List (Call κ ν ρ ε)) (key : κ) (result : Result ν ρ ε) : Prop :=
  ∃ (c : Nat) (call : Call κ ν ρ ε), calls[c]? = some call ∧ call.key = key ∧
    call.compile = .ended result

/-- Calls stay, with their keys and with what came of their compiles. -/
def Grows (calls calls' : List (Call κ ν ρ ε)) : Prop :=
  ∀ (c : Nat) (old : Call κ ν ρ ε), calls[c]? = some old →
    ∃ new, calls'[c]? = some new ∧ new.key = old.key ∧
      (∀ result, old.compile = .ended result → new.compile = .ended result) ∧
      (old.compile ≠ .none → new.compile ≠ .none)

theorem Grows.set (hcall : calls[c]? = some call) (hkey : call'.key = call.key)
    (hended : ∀ result, call.compile = .ended result → call'.compile = .ended result)
    (hstarted : call.compile ≠ .none → call'.compile ≠ .none) :
    Grows calls (calls.set c call') := by
  intro j old hold
  by_cases hj : c = j
  · subst hj
    rw [hcall, Option.some.injEq] at hold
    subst hold
    exact ⟨call', set_self hcall, hkey, hended, hstarted⟩
  · exact ⟨old, by rw [List.getElem?_set_ne hj]; exact hold, rfl, fun _ h => h, fun h => h⟩

theorem Grows.append (calls : List (Call κ ν ρ ε)) (call : Call κ ν ρ ε) :
    Grows calls (calls ++ [call]) := by
  intro j old hold
  refine ⟨old, ?_, rfl, fun _ h => h, fun h => h⟩
  rw [List.getElem?_append_left (List.getElem?_eq_some_iff.mp hold).1]
  exact hold

theorem Grows.notified (h : Grows calls calls') : Grows calls (calls'.map Call.notified) := by
  intro j old hold
  obtain ⟨new, hnew, hkey, hended, hstarted⟩ := h j old hold
  refine ⟨new.notified, ?_, ?_, ?_, ?_⟩
  · rw [List.getElem?_map, hnew]
    rfl
  · rw [key_notified, hkey]
  · rw [compile_notified]
    exact hended
  · rw [compile_notified]
    exact hstarted

theorem Ended.grows (h : Ended calls key result) (hgrows : Grows calls calls') :
    Ended calls' key result := by
  obtain ⟨c, call, hcall, hkey, hended⟩ := h
  obtain ⟨new, hnew, hsame, hkeeps, -⟩ := hgrows c call hcall
  exact ⟨c, new, hnew, hsame.trans hkey, hkeeps result hended⟩

/-- The phase of a call and its compile go together; a failure is the call's own. -/
def Call.Shaped (call : Call κ ν ρ ε) : Prop :=
  match call.phase with
  | .entering | .waiting => call.compile = .none
  | .compiling => call.compile = .running
  | .publishing result => call.compile = .ended result
  | .returned result =>
      (result.lasting = true ∧ call.compile = .none) ∨ call.compile = .ended result

/-- What a call has been told comes from compiles of its key. -/
structure Call.Told (calls : List (Call κ ν ρ ε)) (call : Call κ ν ρ ε) : Prop where
  shaped : call.Shaped
  returned : ∀ result, call.phase = .returned result → Ended calls call.key result
  waited : ∀ w ∈ call.waited, ∃ other, calls[w]? = some other ∧ other.key = call.key ∧
    other.compile ≠ .none

theorem Call.Told.grows (h : call.Told calls) (hgrows : Grows calls calls') :
    call.Told calls' where
  shaped := h.shaped
  returned := fun result hphase => (h.returned result hphase).grows hgrows
  waited := by
    intro w hw
    obtain ⟨other, hother, hkey, hstarted⟩ := h.waited w hw
    obtain ⟨new, hnew, hsame, -, hkeeps⟩ := hgrows w other hother
    exact ⟨new, hnew, hsame.trans hkey, hkeeps hstarted⟩

theorem Call.Told.notified (h : call.Told calls) : call.notified.Told calls := by
  rcases phase_notified call with ⟨hwaiting, hentering⟩ | ⟨-, hself⟩
  · have hshaped := h.shaped
    rw [Call.Shaped, hwaiting] at hshaped
    refine ⟨?_, ?_, ?_⟩
    · rw [Call.Shaped, hentering, compile_notified]
      exact hshaped
    · intro result hphase
      rw [hentering] at hphase
      cases hphase
    · rw [waited_notified, key_notified]
      exact h.waited
  · rw [hself]
    exact h

structure Told (s : State κ ν ρ ε) : Prop where
  calls : ∀ call ∈ s.calls, call.Told s.calls
  entries : ∀ key artifact, (key, artifact) ∈ s.entries → Ended s.calls key (.compiled artifact)
  rejections : ∀ key reason, (key, reason) ∈ s.rejections →
    Ended s.calls key (.rejected reason)

/-- A call changes; the tables have nothing that was not there. -/
theorem Told.change {s t : State κ ν ρ ε} (h : Told s) (hgrows : Grows s.calls t.calls)
    (hcalls : t.calls = s.calls.set c call') (hcall' : call'.Told t.calls)
    (hentries : ∀ entry ∈ t.entries, entry ∈ s.entries)
    (hrejections : ∀ entry ∈ t.rejections, entry ∈ s.rejections) : Told t where
  calls := by
    intro other hother
    rw [hcalls] at hother
    rcases List.mem_or_eq_of_mem_set hother with hold | rfl
    · exact (h.calls other hold).grows hgrows
    · exact hcall'
  entries := fun key artifact hmem => (h.entries key artifact (hentries _ hmem)).grows hgrows
  rejections := fun key reason hmem => (h.rejections key reason (hrejections _ hmem)).grows hgrows

/-! ### The tables -/

structure Tabled (s : State κ ν ρ ε) : Prop where
  room : 1 ≤ s.capacity
  entries_le : s.entries.length ≤ s.capacity
  rejections_le : s.rejections.length ≤ s.capacity
  entries_nodup : (keys s.entries).Nodup
  rejections_nodup : (keys s.rejections).Nodup
  apart : ∀ key ∈ keys s.entries, key ∉ keys s.rejections
  idle : ∀ key ∈ s.pending, key ∉ keys s.entries ∧ key ∉ keys s.rejections

/-- Tables in another order. -/
theorem Tabled.congr {s t : State κ ν ρ ε} (h : Tabled s) (hcapacity : t.capacity = s.capacity)
    (hentries : t.entries.Perm s.entries) (hrejections : t.rejections.Perm s.rejections)
    (hpending : t.pending = s.pending) : Tabled t where
  room := hcapacity ▸ h.room
  entries_le := by
    rw [hentries.length_eq, hcapacity]
    exact h.entries_le
  rejections_le := by
    rw [hrejections.length_eq, hcapacity]
    exact h.rejections_le
  entries_nodup := (hentries.map Prod.fst).nodup_iff.mpr h.entries_nodup
  rejections_nodup := (hrejections.map Prod.fst).nodup_iff.mpr h.rejections_nodup
  apart := by
    intro key hkey hrejected
    exact h.apart key ((hentries.map Prod.fst).mem_iff.mp hkey)
      ((hrejections.map Prod.fst).mem_iff.mp hrejected)
  idle := by
    intro key hkey
    rw [hpending] at hkey
    obtain ⟨hnone, hnone'⟩ := h.idle key hkey
    exact ⟨fun hmem => hnone ((hentries.map Prod.fst).mem_iff.mp hmem),
      fun hmem => hnone' ((hrejections.map Prod.fst).mem_iff.mp hmem)⟩

section Publish

variable [DecidableEq κ] {s : State κ ν ρ ε}

theorem keep_compiled (h : key ∉ keys s.entries) (artifact : ν) :
    s.keep key (.compiled artifact) =
      { s with entries := trim s.capacity (s.entries ++ [(key, artifact)]) } := by
  rw [State.keep, assign_of_notMem h, moveToEnd_append h]

theorem keep_rejected (h : key ∉ keys s.rejections) (reason : ρ) :
    s.keep key (.rejected reason) =
      { s with rejections := trim s.capacity (s.rejections ++ [(key, reason)]) } := by
  rw [State.keep, assign_of_notMem h]

/-- What is kept of a result: the old entries, and the new one. -/
theorem mem_keep (result : Result ν ρ ε) (hkey : key ∉ keys s.entries ∧ key ∉ keys s.rejections)
    (h : Tabled s) :
    (∀ entry ∈ (s.keep key result).entries,
      entry ∈ s.entries ∨ (entry.1 = key ∧ result = .compiled entry.2)) ∧
    ∀ entry ∈ (s.keep key result).rejections,
      entry ∈ s.rejections ∨ (entry.1 = key ∧ result = .rejected entry.2) := by
  cases result with
  | compiled artifact =>
      rw [keep_compiled hkey.1]
      refine ⟨fun entry hmem => ?_, fun entry hmem => .inl hmem⟩
      obtain ⟨-, -, hsub, -⟩ := trim_append key artifact h.room h.entries_le
      rcases List.mem_append.mp (hsub.subset hmem) with hold | hnew
      · exact .inl hold
      · rw [List.mem_singleton.mp hnew]
        exact .inr ⟨rfl, rfl⟩
  | rejected reason =>
      rw [keep_rejected hkey.2]
      refine ⟨fun entry hmem => .inl hmem, fun entry hmem => ?_⟩
      obtain ⟨-, -, hsub, -⟩ := trim_append key reason h.room h.rejections_le
      rcases List.mem_append.mp (hsub.subset hmem) with hold | hnew
      · exact .inl hold
      · rw [List.mem_singleton.mp hnew]
        exact .inr ⟨rfl, rfl⟩
  | failed error => exact ⟨fun entry hmem => .inl hmem, fun entry hmem => .inl hmem⟩

theorem Tabled.keep (h : Tabled s) (hpending : key ∈ s.pending)
    (calls : List (Call κ ν ρ ε)) :
    Tabled { s.keep key result with
      pending := s.pending.filter fun k => k ≠ key
      calls := calls } := by
  have hkey := h.idle key hpending
  obtain ⟨hentries, hrejections⟩ := mem_keep result hkey h
  have hentryKeys : ∀ k ∈ keys (s.keep key result).entries, k ∈ keys s.entries ∨ k = key := by
    intro k hk
    obtain ⟨value, hmem⟩ := mem_keys.mp hk
    rcases hentries _ hmem with hold | ⟨rfl, -⟩
    · exact .inl (mem_keys.mpr ⟨value, hold⟩)
    · exact .inr rfl
  have hrejectionKeys : ∀ k ∈ keys (s.keep key result).rejections,
      k ∈ keys s.rejections ∨ k = key := by
    intro k hk
    obtain ⟨value, hmem⟩ := mem_keys.mp hk
    rcases hrejections _ hmem with hold | ⟨rfl, -⟩
    · exact .inl (mem_keys.mpr ⟨value, hold⟩)
    · exact .inr rfl
  have hsame : (s.keep key result).capacity = s.capacity := by
    cases result <;> rfl
  have hidle : ∀ k ∈ s.pending.filter (fun k => k ≠ key),
      k ∉ keys (s.keep key result).entries ∧ k ∉ keys (s.keep key result).rejections := by
    intro k hk
    rw [List.mem_filter, decide_eq_true_eq] at hk
    obtain ⟨hnone, hnone'⟩ := h.idle k hk.1
    exact ⟨fun hmem => (hentryKeys k hmem).elim hnone hk.2,
      fun hmem => (hrejectionKeys k hmem).elim hnone' hk.2⟩
  cases result with
  | compiled artifact =>
      rw [keep_compiled hkey.1] at *
      refine ⟨h.room, ?_, h.rejections_le, ?_, h.rejections_nodup, ?_, hidle⟩
      · exact (trim_append key artifact h.room h.entries_le).2.2.2
      · exact nodup_trim artifact h.room h.entries_le h.entries_nodup hkey.1
      · intro k hk
        rcases hentryKeys k hk with hold | rfl
        · exact h.apart k hold
        · exact hkey.2
  | rejected reason =>
      rw [keep_rejected hkey.2] at *
      refine ⟨h.room, h.entries_le, ?_, h.entries_nodup, ?_, ?_, hidle⟩
      · exact (trim_append key reason h.room h.rejections_le).2.2.2
      · exact nodup_trim reason h.room h.rejections_le h.rejections_nodup hkey.2
      · intro k hk hrejected
        rcases hrejectionKeys k hrejected with hold | rfl
        · exact h.apart k hk hold
        · exact hkey.1 hk
  | failed error =>
      exact ⟨h.room, h.entries_le, h.rejections_le, h.entries_nodup, h.rejections_nodup, h.apart,
        hidle⟩

theorem Told.publish (h : Told s) (htabled : Tabled s) (hcall : s.calls[c]? = some call)
    (hpending : call.key ∈ s.pending) (hphase : call.phase = .publishing result) :
    Told (s.publish c call result) := by
  have hended : call.compile = .ended result := by
    have hshaped := (h.calls call (List.mem_of_getElem? hcall)).shaped
    rwa [Call.Shaped, hphase] at hshaped
  have hset : Grows s.calls (s.calls.set c { call with phase := .returned result }) :=
    .set hcall rfl (fun _ h => h) (fun h => h)
  have hgrows : Grows s.calls (s.publish c call result).calls := hset.notified
  have hself : Ended s.calls call.key result := ⟨c, call, hcall, rfl, hended⟩
  obtain ⟨hentries, hrejections⟩ := mem_keep result (htabled.idle call.key hpending) htabled
  refine ⟨?_, ?_, ?_⟩
  · intro other hother
    obtain ⟨old, hold, rfl⟩ := List.mem_map.mp hother
    apply Call.Told.notified
    rcases List.mem_or_eq_of_mem_set hold with hmem | rfl
    · exact (h.calls old hmem).grows hgrows
    · refine ⟨.inr hended, ?_, ?_⟩
      · intro other hother
        cases hother
        exact hself.grows hgrows
      · exact ((h.calls call (List.mem_of_getElem? hcall)).grows hgrows).waited
  · intro key artifact hmem
    rcases hentries _ hmem with hold | ⟨hkey, hresult⟩
    · exact (h.entries key artifact hold).grows hgrows
    · dsimp only at hkey hresult
      rw [hkey, ← hresult]
      exact hself.grows hgrows
  · intro key reason hmem
    rcases hrejections _ hmem with hold | ⟨hkey, hresult⟩
    · exact (h.rejections key reason hold).grows hgrows
    · dsimp only at hkey hresult
      rw [hkey, ← hresult]
      exact hself.grows hgrows

end Publish

/-! ### The invariant -/

structure Sound (s : State κ ν ρ ε) : Prop where
  held : Held s.calls s.pending
  told : Told s
  tabled : Tabled s

namespace Sound

variable {s t : State κ ν ρ ε}

theorem start (capacity : Nat) (h : 1 ≤ capacity) :
    Sound (start capacity : State κ ν ρ ε) where
  held := ⟨nofun, nofun, nofun, nofun⟩
  told := ⟨nofun, nofun, nofun⟩
  tabled := ⟨h, Nat.zero_le _, Nat.zero_le _, List.nodup_nil, List.nodup_nil, nofun, nofun⟩

theorem arrive (h : Sound s) (key : κ) :
    Sound { s with
      calls := s.calls ++ [{ key, phase := .entering, compile := .none, waited := [] }] } where
  held := h.held.append rfl (by simp)
  told := by
    have hgrows := Grows.append s.calls
      ({ key, phase := .entering, compile := .none, waited := [] } : Call κ ν ρ ε)
    refine ⟨?_, ?_, ?_⟩
    · intro other hother
      rcases List.mem_append.mp hother with hold | hnew
      · exact (h.told.calls other hold).grows hgrows
      · rw [List.mem_singleton.mp hnew]
        exact ⟨rfl, nofun, nofun⟩
    · exact fun key artifact hmem => (h.told.entries key artifact hmem).grows hgrows
    · exact fun key reason hmem => (h.told.rejections key reason hmem).grows hgrows
  tabled := h.tabled.congr rfl (List.Perm.refl _) (List.Perm.refl _) rfl

/-- A call that holds its key has a compile. -/
theorem started (h : Sound s) {other : Call κ ν ρ ε} (hmem : other ∈ s.calls)
    (hholds : other.holds = true) : other.compile ≠ .none := by
  have hshaped := (h.told.calls other hmem).shaped
  unfold Call.Shaped at hshaped
  unfold Call.holds at hholds
  split at hholds
  · rename_i hphase
    rw [hphase] at hshaped
    rw [hshaped]
    exact nofun
  · rename_i hphase
    rw [hphase] at hshaped
    rw [hshaped]
    exact nofun
  · cases hholds

/-- A look that finds a result, in a table that only changes its order. -/
theorem hit (h : Sound s) (hcall : s.calls[c]? = some call) (hphase : call.phase = .entering)
    (hlasting : result.lasting = true) (hended : Ended s.calls call.key result)
    {entries : List (κ × ν)} {rejections : List (κ × ρ)} (hentries : entries.Perm s.entries)
    (hrejections : rejections.Perm s.rejections) :
    Sound { s with
      entries := entries
      rejections := rejections
      calls := s.calls.set c { call with phase := .returned result } } where
  held := h.held.change hcall rfl (by rw [Call.holds, Call.holds, hphase]) (by simp)
  told := by
    have hcalltold := h.told.calls call (List.mem_of_getElem? hcall)
    have hnone : call.compile = .none := by
      have hshaped := hcalltold.shaped
      rwa [Call.Shaped, hphase] at hshaped
    have hgrows : Grows s.calls (s.calls.set c { call with phase := .returned result }) :=
      .set hcall rfl (fun _ h => h) (fun h => h)
    refine h.told.change hgrows rfl ⟨.inl ⟨hlasting, hnone⟩, ?_, ?_⟩
      (fun entry hmem => hentries.mem_iff.mp hmem) (fun entry hmem => hrejections.mem_iff.mp hmem)
    · intro other hother
      cases hother
      exact hended.grows hgrows
    · exact (hcalltold.grows hgrows).waited
  tabled := h.tabled.congr rfl hentries hrejections rfl

/-- A look that finds nothing: the compile starts. -/
theorem miss (h : Sound s) (hcall : s.calls[c]? = some call) (hphase : call.phase = .entering)
    (hentries : call.key ∉ keys s.entries) (hrejections : call.key ∉ keys s.rejections)
    (hfree : call.key ∉ s.pending) :
    Sound { s with
      pending := call.key :: s.pending
      calls := s.calls.set c { call with phase := .compiling, compile := .running } } where
  held := h.held.start hcall rfl rfl (by simp) hfree
  told := by
    have hcalltold := h.told.calls call (List.mem_of_getElem? hcall)
    have hnone : call.compile = .none := by
      have hshaped := hcalltold.shaped
      rwa [Call.Shaped, hphase] at hshaped
    have hgrows : Grows s.calls
        (s.calls.set c { call with phase := .compiling, compile := .running }) := by
      refine .set hcall rfl (fun result hended => ?_) (fun _ => nofun)
      rw [hnone] at hended
      cases hended
    exact h.told.change hgrows rfl ⟨rfl, nofun, (hcalltold.grows hgrows).waited⟩
      (fun entry hmem => hmem) (fun entry hmem => hmem)
  tabled := by
    refine ⟨h.tabled.room, h.tabled.entries_le, h.tabled.rejections_le, h.tabled.entries_nodup,
      h.tabled.rejections_nodup, h.tabled.apart, ?_⟩
    intro key hkey
    rcases List.mem_cons.mp hkey with rfl | hold
    · exact ⟨hentries, hrejections⟩
    · exact h.tabled.idle key hold

theorem finish (h : Sound s) (hcall : s.calls[c]? = some call) (hphase : call.phase = .compiling)
    (result : Result ν ρ ε) :
    Sound { s with
      calls := s.calls.set c
        { call with phase := .publishing result, compile := .ended result } } where
  held := h.held.change hcall rfl (by rw [Call.holds, Call.holds, hphase]) (by simp)
  told := by
    have hcalltold := h.told.calls call (List.mem_of_getElem? hcall)
    have hrunning : call.compile = .running := by
      have hshaped := hcalltold.shaped
      rwa [Call.Shaped, hphase] at hshaped
    have hgrows : Grows s.calls (s.calls.set c
        { call with phase := .publishing result, compile := .ended result }) := by
      refine .set hcall rfl (fun other hended => ?_) (fun _ => nofun)
      rw [hrunning] at hended
      cases hended
    exact h.told.change hgrows rfl ⟨rfl, nofun, (hcalltold.grows hgrows).waited⟩
      (fun entry hmem => hmem) (fun entry hmem => hmem)
  tabled := h.tabled.congr rfl (List.Perm.refl _) (List.Perm.refl _) rfl

variable [DecidableEq κ]

/-- The compiler of a pending key is a call that holds it. -/
theorem compiler_eq (h : Sound s) (hpending : key ∈ s.pending) :
    ∃ w other, s.compiler key = some w ∧ s.calls[w]? = some other ∧ other.key = key ∧
      other.holds = true := by
  obtain ⟨j, holder, hholder, hkey, hholds⟩ := h.held.owned key hpending
  cases hfind : s.compiler key with
  | none =>
      rw [State.compiler, List.findIdx?_eq_none_iff] at hfind
      have hnone := hfind holder (List.mem_of_getElem? hholder)
      simp [hkey, hholds] at hnone
  | some w =>
      rw [State.compiler, List.findIdx?_eq_some_iff_getElem] at hfind
      obtain ⟨hlt, hfound, -⟩ := hfind
      rw [Bool.and_eq_true, decide_eq_true_eq] at hfound
      exact ⟨w, s.calls[w], rfl, List.getElem?_eq_getElem hlt, hfound.1, hfound.2⟩

/-- A look that finds the key pending. -/
theorem wait (h : Sound s) (hcall : s.calls[c]? = some call) (hphase : call.phase = .entering)
    (hpending : call.key ∈ s.pending) :
    Sound { s with
      calls := s.calls.set c
        { call with
          phase := .waiting
          waited := call.waited ++ (s.compiler call.key).toList } } where
  held := h.held.change hcall rfl (by rw [Call.holds, Call.holds, hphase]) (fun _ => hpending)
  told := by
    have hcalltold := h.told.calls call (List.mem_of_getElem? hcall)
    have hnone : call.compile = .none := by
      have hshaped := hcalltold.shaped
      rwa [Call.Shaped, hphase] at hshaped
    have hgrows : Grows s.calls (s.calls.set c
        { call with
          phase := .waiting
          waited := call.waited ++ (s.compiler call.key).toList }) :=
      .set hcall rfl (fun _ h => h) (fun h => h)
    refine h.told.change hgrows rfl ⟨hnone, nofun, ?_⟩ (fun entry hmem => hmem)
      (fun entry hmem => hmem)
    intro w hw
    rcases List.mem_append.mp hw with hold | hnew
    · exact (hcalltold.grows hgrows).waited w hold
    · obtain ⟨i, other, hcompiler, hother, hkey, hholds⟩ := h.compiler_eq hpending
      rw [hcompiler, Option.toList_some, List.mem_singleton] at hnew
      subst hnew
      obtain ⟨new, hnew, hsame, -, hkeeps⟩ := hgrows w other hother
      exact ⟨new, hnew, hsame.trans hkey,
        hkeeps (h.started (List.mem_of_getElem? hother) hholds)⟩
  tabled := h.tabled.congr rfl (List.Perm.refl _) (List.Perm.refl _) rfl

theorem publish (h : Sound s) (hcall : s.calls[c]? = some call)
    (hphase : call.phase = .publishing result) : Sound (s.publish c call result) := by
  have hholds : call.holds = true := by rw [Call.holds, hphase]
  have hpending := h.held.marked c call hcall hholds
  exact ⟨h.held.publish hcall hholds rfl, h.told.publish h.tabled hcall hpending hphase,
    h.tabled.keep hpending _⟩

theorem examine (h : Sound s) (hcall : s.calls[c]? = some call)
    (hphase : call.phase = .entering) : Sound (s.examine c call) := by
  unfold State.examine
  split
  · rename_i artifact hget
    exact h.hit hcall hphase rfl (h.told.entries _ _ (mem_of_get? hget))
      (moveToEnd_perm _ _) (List.Perm.refl _)
  · rename_i hentries
    split
    · rename_i reason hget
      exact h.hit hcall hphase rfl (h.told.rejections _ _ (mem_of_get? hget))
        (List.Perm.refl _) (moveToEnd_perm _ _)
    · rename_i hrejections
      split
      · rename_i hfree
        exact h.miss hcall hphase (get?_eq_none.mp hentries) (get?_eq_none.mp hrejections) hfree
      · rename_i hpending
        exact h.wait hcall hphase (not_not.mp hpending)

theorem step (h : Sound s) {a : Action κ ν ρ ε} (hstep : ArtifactCache.step s a = some t) :
    Sound t := by
  cases a with
  | call key =>
      cases hstep
      exact h.arrive key
  | examine c =>
      rw [ArtifactCache.step] at hstep
      split at hstep
      · rename_i hcall
        split at hstep
        · rename_i hphase
          cases hstep
          exact h.examine hcall hphase
        · cases hstep
      · cases hstep
  | finish c result =>
      rw [ArtifactCache.step] at hstep
      split at hstep
      · rename_i hcall
        split at hstep
        · rename_i hphase
          cases hstep
          exact h.finish hcall hphase result
        · cases hstep
      · cases hstep
  | publish c =>
      rw [ArtifactCache.step] at hstep
      split at hstep
      · rename_i hcall
        split at hstep
        · rename_i hphase
          cases hstep
          exact h.publish hcall hphase
        · cases hstep
      · cases hstep

end Sound

theorem sound_of_reachable [DecidableEq κ] {capacity : Nat} {s : State κ ν ρ ε}
    (h : (system capacity).Reachable s) : Sound s := by
  refine System.Reachable.invariant ?_ ?_ h
  · intro s hs
    rw [hs.2]
    exact .start capacity hs.1
  · intro s a t hs hstep
    exact hs.step hstep

end SymReloc.ArtifactCache
