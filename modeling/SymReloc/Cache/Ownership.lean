import SymReloc.Cache.Charges

/-!
# Who has an entry

A call that holds a lease or retires an entry has that entry for itself, and the entry
is in the state that the call believes.  Every lock section changes the entry of the
call that runs it, or an idle entry, which nobody has.
-/

namespace SymReloc.Cache

open Ledger

/-- What a call takes for granted about its entry. -/
def Call.Demands (entries : List Entry) : Call → Prop
  | .outside => True
  | .waiting _ _ _ => True
  | .leased r id _ phase => ∃ e ∈ entries, e.id = id ∧ e.key = r.key ∧ phase.Fits e
  | .retiring id _ => ∃ e ∈ entries, e.id = id ∧ e.state = .retiring
  | .clearing _ _ => True

/-- What an idle entry is like. -/
def Entry.Kept (e : Entry) : Prop :=
  e.state = .idle → e.cacheable = true ∧ e.context ≠ none

structure Owned (m : Machine) : Prop where
  unique : (m.cache.entries.map Entry.id).Nodup
  below : ∀ e ∈ m.cache.entries, e.id < m.cache.nextId
  demands : ∀ c, (m.calls c).Demands m.cache.entries
  alone : ∀ c d id, (m.calls c).holds = some id → (m.calls d).holds = some id → c = d
  kept : ∀ e ∈ m.cache.entries, e.Kept
  sound : ∀ e ∈ m.cache.entries, e.Sound

/-! ### Demands -/

theorem Call.demands_of_holds_none {call : Call} (h : call.holds = none) (entries : List Entry) :
    call.Demands entries := by
  cases call <;> simp_all [Call.holds, Call.Demands]

/-- A call does not see the change of an entry that it does not hold. -/
theorem Call.Demands.amend {entries : List Entry} {call : Call} {id : Nat}
    {change : Entry → Entry} (h : call.Demands entries) (hother : call.holds ≠ some id) :
    call.Demands (amend Entry.id entries id change) := by
  have hstays : ∀ e ∈ entries, e.id ≠ id → e ∈ Ledger.amend Entry.id entries id change :=
    fun e he hne => mem_amend.mpr ⟨e, he, if_neg hne⟩
  cases call with
  | outside => trivial
  | waiting r ticket waited => trivial
  | clearing closing cutoff => trivial
  | leased r i floor phase =>
    obtain ⟨e, he, hid, hfits⟩ := h
    exact ⟨e, hstays e he fun heq => hother (by simp [holds, ← hid, heq]), hid, hfits⟩
  | retiring i resume =>
    obtain ⟨e, he, hid, hstate⟩ := h
    exact ⟨e, hstays e he fun heq => hother (by simp [holds, ← hid, heq]), hid, hstate⟩

theorem Call.Demands.mono {entries entries' : List Entry} {call : Call}
    (h : call.Demands entries)
    (hmem : ∀ e ∈ entries, call.holds = some e.id → e ∈ entries') : call.Demands entries' := by
  cases call with
  | outside => trivial
  | waiting r ticket waited => trivial
  | clearing closing cutoff => trivial
  | leased r i floor phase =>
    obtain ⟨e, he, hid, hfits⟩ := h
    exact ⟨e, hmem e he (by simp [holds, hid]), hid, hfits⟩
  | retiring i resume =>
    obtain ⟨e, he, hid, hstate⟩ := h
    exact ⟨e, hmem e he (by simp [holds, hid]), hid, hstate⟩

/-- A call may take what no other call has. -/
theorem alone_update {calls : Nat → Call} {c : Nat} {call : Call}
    (halone : ∀ c d id, (calls c).holds = some id → (calls d).holds = some id → c = d)
    (hfree : ∀ id, call.holds = some id → ∀ d, d ≠ c → (calls d).holds ≠ some id) :
    ∀ d d' id, (Function.update calls c call d).holds = some id →
      (Function.update calls c call d').holds = some id → d = d' := by
  intro d d' id hd hd'
  by_cases hc : d = c
  · by_cases hc' : d' = c
    · rw [hc, hc']
    · subst hc
      rw [Function.update_self] at hd
      rw [Function.update_of_ne hc'] at hd'
      exact absurd hd' (hfree id hd d' hc')
  · by_cases hc' : d' = c
    · subst hc'
      rw [Function.update_self] at hd'
      rw [Function.update_of_ne hc] at hd
      exact absurd hd (hfree id hd' d hc)
    · rw [Function.update_of_ne hc] at hd
      rw [Function.update_of_ne hc'] at hd'
      exact halone d d' id hd hd'

namespace Owned

variable {m : Machine} {c id : Nat} {e : Entry}

/-- What a call has is an entry in use. -/
theorem holds_entry (h : Owned m) {d : Nat} (hd : (m.calls d).holds = some id) :
    ∃ e ∈ m.cache.entries, e.id = id := by
  have hdemands := h.demands d
  cases hcall : m.calls d with
  | outside => simp [hcall, Call.holds] at hd
  | waiting r ticket waited => simp [hcall, Call.holds] at hd
  | clearing closing cutoff => simp [hcall, Call.holds] at hd
  | leased r i floor phase =>
    rw [hcall] at hdemands hd
    cases hd
    obtain ⟨e, he, hid, -⟩ := hdemands
    exact ⟨e, he, hid⟩
  | retiring i resume =>
    rw [hcall] at hdemands hd
    cases hd
    obtain ⟨e, he, hid, -⟩ := hdemands
    exact ⟨e, he, hid⟩

/-- Nobody has an idle entry. -/
theorem free_of_idle (h : Owned m) (he : e ∈ m.cache.entries) (hidle : e.state = .idle) (d : Nat) :
    (m.calls d).holds ≠ some e.id := by
  intro hholds
  have hdemands := h.demands d
  cases hcall : m.calls d with
  | outside => simp [hcall, Call.holds] at hholds
  | waiting r ticket waited => simp [hcall, Call.holds] at hholds
  | clearing closing cutoff => simp [hcall, Call.holds] at hholds
  | leased r i floor phase =>
    rw [hcall] at hdemands hholds
    obtain ⟨e', he', hid, -, hfits⟩ := hdemands
    cases hholds
    have heq := eq_of_number_eq h.unique he' he hid
    subst heq
    cases phase <;> simp_all [Phase.Fits]
  | retiring i resume =>
    rw [hcall] at hdemands hholds
    obtain ⟨e', he', hid, hstate⟩ := hdemands
    cases hholds
    have heq := eq_of_number_eq h.unique he' he hid
    subst heq
    simp [hidle] at hstate

/-- What one call has, no other has. -/
theorem free_of_holds (h : Owned m) (hc : (m.calls c).holds = some id) (d : Nat) (hne : d ≠ c) :
    (m.calls d).holds ≠ some id :=
  fun hd => hne (h.alone d c id hd hc)

theorem mem_of_entryOf {s : CacheState} (h : s.entryOf id = some e) :
    e ∈ s.entries ∧ e.id = id :=
  ⟨List.mem_of_find?_eq_some h, by simpa using List.find?_some h⟩

/-- The entry of a lease. -/
theorem leased_entry (h : Owned m) {r : CacheRequest} {floor : Nat} {phase : Phase}
    (hc : m.calls c = .leased r id floor phase) (he : m.cache.entryOf id = some e) :
    e.key = r.key ∧ phase.Fits e := by
  have hdemands := h.demands c
  rw [hc] at hdemands
  obtain ⟨e', he', hid, hfits⟩ := hdemands
  obtain ⟨hmem, hid'⟩ := mem_of_entryOf he
  rw [eq_of_number_eq h.unique he' hmem (hid.trans hid'.symm)] at hfits
  exact hfits

theorem retiring_entry (h : Owned m) {resume : Resume} (hc : m.calls c = .retiring id resume)
    (he : m.cache.entryOf id = some e) : e.state = .retiring := by
  have hdemands := h.demands c
  rw [hc] at hdemands
  obtain ⟨e', he', hid, hstate⟩ := hdemands
  obtain ⟨hmem, hid'⟩ := mem_of_entryOf he
  rw [eq_of_number_eq h.unique he' hmem (hid.trans hid'.symm)] at hstate
  exact hstate

/-! ### Lock sections that change one entry -/

/-- Change an entry that no other call has, and let the call have it or give it up. -/
theorem touch (h : Owned m) {change : Entry → Entry} {call : Call} (he : e ∈ m.cache.entries)
    (hfree : ∀ d, d ≠ c → (m.calls d).holds ≠ some e.id) (hid : (change e).id = e.id)
    (hsound : (change e).Sound) (hkept : (change e).Kept) (hcall : call.Demands [change e]) :
    Owned (m.touch c e.id change call) := by
  have hchange : ∀ d ∈ m.cache.entries, d.id = e.id → d = e :=
    fun d hd heq => eq_of_number_eq h.unique hd he heq
  have hnumber : ∀ d ∈ m.cache.entries, (if d.id = e.id then change d else d).id = d.id := by
    intro d hd
    split
    · rw [hchange d hd ‹_›, hid]
    · rfl
  have hmem : change e ∈ amend Entry.id m.cache.entries e.id change :=
    mem_amend.mpr ⟨e, he, if_pos rfl⟩
  have hall : ∀ P : Entry → Prop, (∀ d ∈ m.cache.entries, P d) → P (change e) →
      ∀ d ∈ amend Entry.id m.cache.entries e.id change, P d := by
    intro P hold hnew d hd
    obtain ⟨d', hd', heq⟩ := mem_amend.mp hd
    subst heq
    split
    · rw [hchange d' hd' ‹_›]
      exact hnew
    · exact hold d' hd'
  have hheld : ∀ i, call.holds = some i → i = e.id := by
    intro i hi
    cases call <;> simp_all [Call.holds, Call.Demands]
  constructor
  · show ((amend Entry.id m.cache.entries e.id change).map Entry.id).Nodup
    have hmap : (amend Entry.id m.cache.entries e.id change).map Entry.id =
        m.cache.entries.map Entry.id := by
      rw [amend, List.map_map]
      exact List.map_congr_left fun d hd => hnumber d hd
    rw [hmap]
    exact h.unique
  · exact hall (fun d => d.id < m.cache.nextId) h.below (by rw [hid]; exact h.below e he)
  · intro d
    show (Function.update m.calls c call d).Demands _
    by_cases hd : d = c
    · subst hd
      rw [Function.update_self]
      refine hcall.mono fun d' hd' _ => ?_
      rw [List.mem_singleton.mp hd']
      exact hmem
    · rw [Function.update_of_ne hd]
      exact (h.demands d).amend (hfree d hd)
  · exact alone_update h.alone fun i hi d hd => hheld i hi ▸ hfree d hd
  · exact hall Entry.Kept h.kept hkept
  · exact hall Entry.Sound h.sound hsound

/-- Nothing that `Owned` speaks of changes but the call, which has nothing. -/
theorem setCall (h : Owned m) {cache : CacheState} {call : Call}
    (hentries : cache.entries = m.cache.entries) (hnext : m.cache.nextId ≤ cache.nextId)
    (hcall : call.holds = none) :
    Owned ({ m with cache }.setCall c call) := by
  constructor
  · show (cache.entries.map Entry.id).Nodup
    rw [hentries]
    exact h.unique
  · intro e he
    exact Nat.lt_of_lt_of_le (h.below e (hentries ▸ he)) hnext
  · intro d
    show (Function.update m.calls c call d).Demands cache.entries
    rw [hentries]
    by_cases hd : d = c
    · subst hd
      rw [Function.update_self]
      exact Call.demands_of_holds_none hcall _
    · rw [Function.update_of_ne hd]
      exact h.demands d
  · exact alone_update h.alone fun i hi => by simp [hcall] at hi
  · intro e he
    exact h.kept e (hentries ▸ he)
  · intro e he
    exact h.sound e (hentries ▸ he)

/-- The same entries under another history. -/
theorem withCache (h : Owned m) {cache : CacheState} (hentries : cache.entries = m.cache.entries)
    (hnext : m.cache.nextId ≤ cache.nextId) : Owned { m with cache } where
  unique := by
    show (cache.entries.map Entry.id).Nodup
    rw [hentries]
    exact h.unique
  below := fun e he => Nat.lt_of_lt_of_le (h.below e (hentries ▸ he)) hnext
  demands := fun d => by
    show (m.calls d).Demands cache.entries
    rw [hentries]
    exact h.demands d
  alone := h.alone
  kept := fun e he => h.kept e (hentries ▸ he)
  sound := fun e he => h.sound e (hentries ▸ he)

theorem granted (h : Owned m) (ticket id : Nat) :
    Owned { m with cache := m.cache.grant ticket id } :=
  h.withCache rfl (Nat.le_refl _)

/-- A new entry goes to the call that it was made for. -/
theorem append (h : Owned m) {r : CacheRequest} {floor generation : Nat} {cache : CacheState}
    (hentries : cache.entries = m.cache.entries ++ [Entry.fresh m.cache.nextId generation r])
    (hnext : cache.nextId = m.cache.nextId + 1) :
    Owned ({ m with cache }.setCall c (.leased r m.cache.nextId floor .constructing)) := by
  have hnew : ∀ d ∈ m.cache.entries, d.id ≠ m.cache.nextId :=
    fun d hd => Nat.ne_of_lt (h.below d hd)
  have hunheld : ∀ d, (m.calls d).holds ≠ some m.cache.nextId := by
    intro d hd
    obtain ⟨e, he, hid⟩ := h.holds_entry hd
    exact hnew e he hid
  have hall : ∀ P : Entry → Prop, (∀ d ∈ m.cache.entries, P d) →
      P (Entry.fresh m.cache.nextId generation r) → ∀ d ∈ cache.entries, P d := by
    intro P hold hfresh d hd
    rw [hentries] at hd
    rcases List.mem_append.mp hd with hd | hd
    · exact hold d hd
    · rw [List.mem_singleton.mp hd]
      exact hfresh
  constructor
  · show (cache.entries.map Entry.id).Nodup
    rw [hentries, List.map_append, List.nodup_append]
    refine ⟨h.unique, by simp, fun i hi j hj => ?_⟩
    obtain ⟨d, hd, rfl⟩ := List.mem_map.mp hi
    rw [List.map_singleton, List.mem_singleton] at hj
    rw [hj]
    exact hnew d hd
  · show ∀ e ∈ cache.entries, e.id < cache.nextId
    rw [hnext]
    exact hall (fun e => e.id < m.cache.nextId + 1) (fun e he => Nat.lt_succ_of_lt (h.below e he))
      (Nat.lt_succ_self _)
  · intro d
    show (Function.update m.calls c _ d).Demands cache.entries
    by_cases hd : d = c
    · subst hd
      rw [Function.update_self, hentries]
      exact ⟨_, List.mem_append_right _ (List.mem_singleton_self _), rfl, rfl, rfl, fun _ => rfl⟩
    · rw [Function.update_of_ne hd, hentries]
      exact (h.demands d).mono fun e he _ => List.mem_append_left _ he
  · refine alone_update h.alone fun i hi d _ => ?_
    cases hi
    exact hunheld d
  · exact hall Entry.Kept h.kept fun hidle => by cases hidle
  · exact hall Entry.Sound h.sound (Entry.sound_fresh _ _ r)

/-- An entry that its call strikes out. -/
theorem strike (h : Owned m) {call : Call} (hc : (m.calls c).holds = some id)
    (hcall : call.holds = none) :
    Owned ({ m with cache :=
      { m.cache with entries := Ledger.strike Entry.id m.cache.entries id } }.setCall c call) := by
  have hsub : ∀ e ∈ Ledger.strike Entry.id m.cache.entries id, e ∈ m.cache.entries :=
    fun e he => (mem_strike.mp he).1
  constructor
  · exact nodup_strike h.unique
  · exact fun e he => h.below e (hsub e he)
  · intro d
    show (Function.update m.calls c call d).Demands _
    by_cases hd : d = c
    · subst hd
      rw [Function.update_self]
      exact Call.demands_of_holds_none hcall _
    · rw [Function.update_of_ne hd]
      refine (h.demands d).mono fun e he hheld => mem_strike.mpr ⟨he, fun heq => ?_⟩
      exact h.free_of_holds hc d hd (heq ▸ hheld)
  · exact alone_update h.alone fun i hi => by simp [hcall] at hi
  · exact fun e he => h.kept e (hsub e he)
  · exact fun e he => h.sound e (hsub e he)

end Owned

end SymReloc.Cache
