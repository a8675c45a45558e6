import SymReloc.Frontend.CompileOnce

/-!
# What a caller waited for

A caller that found its key pending looks again after some publication.  If the compile it
found ended with an artifact or a rejection, this is in a table from then on, until a
publication of another key makes room for itself; a caller that has not looked by then
compiles its key once more.
-/

namespace SymReloc.ArtifactCache

open OrderedTable

variable {κ ν ρ ε : Type} {c : Nat} {call call' : Call κ ν ρ ε} {key : κ}
  {result : Result ν ρ ε} {s t : State κ ν ρ ε}

/-! ### The condition -/

/-- The key that goes when a result is kept. -/
def State.evicts (s : State κ ν ρ ε) : Result ν ρ ε → Option κ
  | .compiled _ => oldest s.capacity s.entries
  | .rejected _ => oldest s.capacity s.rejections
  | .failed _ => none

/-- The caller waited for a compile whose result is there to be kept, and has not looked since
    it was woken. -/
def State.Owed (s : State κ ν ρ ε) (call : Call κ ν ρ ε) : Prop :=
  call.phase = .entering ∧ ∃ w ∈ call.waited, ∃ other, s.calls[w]? = some other ∧
    ∃ result, other.compile = .ended result ∧ result.lasting = true

/-- No publication takes a key away from such a caller. -/
def Keeps (s : State κ ν ρ ε) : Action κ ν ρ ε → Prop
  | .publish c => ∀ call result, s.calls[c]? = some call → call.phase = .publishing result →
      ∀ key, s.evicts result = some key → ∀ other ∈ s.calls, other.key = key → ¬ s.Owed other
  | _ => True

/-! ### What is due -/

/-- A caller that waits, or has not looked, finds the lasting results that it waited for: they
    are kept, or not yet published. -/
def Due (s : State κ ν ρ ε) : Prop :=
  ∀ call ∈ s.calls, call.phase = .entering ∨ call.phase = .waiting → ∀ w ∈ call.waited,
    ∀ other, s.calls[w]? = some other → ∀ result, other.compile = .ended result →
      result.lasting = true →
      other.holds = true ∨ call.key ∈ keys s.entries ∨ call.key ∈ keys s.rejections

/-- A caller that compiles waited for failures only. -/
def Once (s : State κ ν ρ ε) : Prop :=
  ∀ call ∈ s.calls, call.compile ≠ .none → ∀ w ∈ call.waited,
    ∃ other error, s.calls[w]? = some other ∧ other.compile = .ended (.failed error)

theorem Due.start (capacity : Nat) : Due (start capacity : State κ ν ρ ε) := nofun

theorem Once.start (capacity : Nat) : Once (start capacity : State κ ν ρ ε) := nofun

/-- A step that changes a call, not to wait for more, and may reorder the tables. -/
theorem Due.change (h : Due s) (hcall : s.calls[c]? = some call)
    (hcalls : t.calls = s.calls.set c call')
    (hself : call'.phase = .entering ∨ call'.phase = .waiting → ∀ w ∈ call'.waited,
      ∀ other, s.calls[w]? = some other → ∀ result, other.compile = .ended result →
      result.lasting = true →
      other.holds = true ∨ call'.key ∈ keys s.entries ∨ call'.key ∈ keys s.rejections)
    (hended : ∀ result, call'.compile = .ended result → call'.holds = true ∨
      (call.holds = false ∧ call.compile = .ended result))
    (hentries : ∀ key ∈ keys s.entries, key ∈ keys t.entries)
    (hrejections : ∀ key ∈ keys s.rejections, key ∈ keys t.rejections) : Due t := by
  intro other hother hphase w hw source hsource result hresult hlasting
  rw [hcalls] at hother hsource
  have hold : ∀ old, s.calls[w]? = some old → old.compile = .ended result →
      old.holds = true ∨ other.key ∈ keys s.entries ∨ other.key ∈ keys s.rejections := by
    intro old hold hendedOld
    rcases List.mem_or_eq_of_mem_set hother with hmem | rfl
    · exact h other hmem hphase w hw old hold result hendedOld hlasting
    · exact hself hphase w hw old hold result hendedOld hlasting
  rcases get_set hcall hsource with ⟨rfl, rfl⟩ | ⟨-, hsame⟩
  · rcases hended result hresult with hholds | ⟨hfree, hendedOld⟩
    · exact .inl hholds
    · rcases hold call hcall hendedOld with hholds | hentry | hrejection
      · rw [hfree] at hholds
        cases hholds
      · exact .inr (.inl (hentries _ hentry))
      · exact .inr (.inr (hrejections _ hrejection))
  · rcases hold source hsame hresult with hholds | hentry | hrejection
    · exact .inl hholds
    · exact .inr (.inl (hentries _ hentry))
    · exact .inr (.inr (hrejections _ hrejection))

theorem Due.arrive (h : Due s) (hsound : Sound s) (key : κ) :
    Due { s with
      calls := s.calls ++ [{ key, phase := .entering, compile := .none, waited := [] }] } := by
  intro other hother hphase w hw source hsource
  rcases List.mem_append.mp hother with hold | hnew
  · obtain ⟨old, hget, -, -⟩ := (hsound.told.calls other hold).waited w hw
    dsimp only at hsource
    rw [List.getElem?_append_left (List.getElem?_eq_some_iff.mp hget).1] at hsource
    exact h other hold hphase w hw source hsource
  · rw [List.mem_singleton.mp hnew] at hw
    cases hw

theorem Due.finish (h : Due s) (hcall : s.calls[c]? = some call) (result : Result ν ρ ε) :
    Due { s with
      calls := s.calls.set c
        { call with phase := .publishing result, compile := .ended result } } := by
  refine h.change hcall rfl (fun hphase => ?_) (fun other hended => .inl rfl) (fun key hmem => hmem)
    (fun key hmem => hmem)
  rcases hphase with hentering | hwaiting
  · cases hentering
  · cases hwaiting

section Steps

variable [DecidableEq κ]

theorem Due.examine (h : Due s) (hsound : Sound s) (hcall : s.calls[c]? = some call)
    (hphase : call.phase = .entering) : Due (s.examine c call) := by
  have hmem := List.mem_of_getElem? hcall
  have hnone : call.compile = .none := by
    have hshaped := (hsound.told.calls call hmem).shaped
    rwa [Call.Shaped, hphase] at hshaped
  have hnever : ∀ result, ¬ call.compile = .ended result := by
    intro result hended
    rw [hnone] at hended
    cases hended
  unfold State.examine
  split
  · refine h.change hcall rfl (fun hphase => ?_)
      (fun result hended => absurd hended (hnever result)) ?_ (fun key hkey => hkey)
    · rcases hphase with hentering | hwaiting
      · cases hentering
      · cases hwaiting
    exact fun key hkey => (keys_moveToEnd_perm _ _).mem_iff.mpr hkey
  · split
    · refine h.change hcall rfl (fun hphase => ?_)
        (fun result hended => absurd hended (hnever result)) (fun key hkey => hkey) ?_
      · rcases hphase with hentering | hwaiting
        · cases hentering
        · cases hwaiting
      exact fun key hkey => (keys_moveToEnd_perm _ _).mem_iff.mpr hkey
    · split
      · refine h.change hcall rfl (fun hphase => ?_) (fun result hended => ?_)
          (fun key hkey => hkey) (fun key hkey => hkey)
        · rcases hphase with hentering | hwaiting
          · cases hentering
          · cases hwaiting
        · cases hended
      · rename_i hpending
        refine h.change hcall rfl ?_ (fun result hended => absurd hended (hnever result))
          (fun key hkey => hkey) (fun key hkey => hkey)
        intro _ w hw other hother result hended hlasting
        rcases List.mem_append.mp hw with hold | hnew
        · exact h call hmem (.inl hphase) w hold other hother result hended hlasting
        · obtain ⟨i, holder, hcompiler, hholder, -, hholds⟩ :=
            hsound.compiler_eq (not_not.mp hpending)
          rw [hcompiler, Option.toList_some, List.mem_singleton] at hnew
          subst hnew
          rw [hholder, Option.some.injEq] at hother
          exact .inl (hother ▸ hholds)

/-- A key stays in the tables unless it makes room; a lasting result is in them. -/
theorem keys_keep (result : Result ν ρ ε) (hsound : Sound s) (hpending : key ∈ s.pending) :
    (∀ k, k ∈ keys s.entries ∨ k ∈ keys s.rejections →
      (k ∈ keys (s.keep key result).entries ∨ k ∈ keys (s.keep key result).rejections) ∨
        s.evicts result = some k) ∧
    (result.lasting = true →
      key ∈ keys (s.keep key result).entries ∨ key ∈ keys (s.keep key result).rejections) := by
  have htabled := hsound.tabled
  have hkey := htabled.idle key hpending
  cases result with
  | compiled artifact =>
      rw [keep_compiled hkey.1]
      obtain ⟨hold, hnew, -, -⟩ := trim_append key artifact htabled.room htabled.entries_le
      refine ⟨fun k hk => ?_, fun _ => .inl hnew⟩
      rcases hk with hentry | hrejection
      · rcases hold k hentry with hstays | hgoes
        · exact .inl (.inl hstays)
        · exact .inr hgoes
      · exact .inl (.inr hrejection)
  | rejected reason =>
      rw [keep_rejected hkey.2]
      obtain ⟨hold, hnew, -, -⟩ := trim_append key reason htabled.room htabled.rejections_le
      refine ⟨fun k hk => ?_, fun _ => .inr hnew⟩
      rcases hk with hentry | hrejection
      · exact .inl (.inl hentry)
      · rcases hold k hrejection with hstays | hgoes
        · exact .inl (.inr hstays)
        · exact .inr hgoes
  | failed error => exact ⟨fun k hk => .inl hk, nofun⟩

theorem Due.publish (h : Due s) (hsound : Sound s) (hkeeps : Keeps s (.publish c))
    (hcall : s.calls[c]? = some call) (hphase : call.phase = .publishing result) :
    Due (s.publish c call result) := by
  have hholds : call.holds = true := by rw [Call.holds, hphase]
  have hpending := hsound.held.marked c call hcall hholds
  have hended : call.compile = .ended result := by
    have hshaped := (hsound.told.calls call (List.mem_of_getElem? hcall)).shaped
    rwa [Call.Shaped, hphase] at hshaped
  obtain ⟨hstays, hkept⟩ := keys_keep result hsound hpending
  intro waiter hwaiter hwaits w hw source hsource other hother hlasting
  obtain ⟨old, hold, rfl⟩ := List.mem_map.mp hwaiter
  rw [waited_notified] at hw
  rw [key_notified]
  -- The waiter is not the call that publishes.
  have hmem : old ∈ s.calls := by
    rcases List.mem_or_eq_of_mem_set hold with hmem | rfl
    · exact hmem
    · rcases hwaits with hentering | hwaiting
      · cases hentering
      · cases hwaiting
  have holdWaits : old.phase = .entering ∨ old.phase = .waiting := by
    rcases phase_notified old with ⟨hwaiting, -⟩ | ⟨-, hself⟩
    · exact .inr hwaiting
    · rw [hself] at hwaits
      exact hwaits
  obtain ⟨found, hfound, hfoundKey, -⟩ := (hsound.told.calls old hmem).waited w hw
  change ((s.calls.set c { call with phase := .returned result }).map Call.notified)[w]? =
    some source at hsource
  rw [List.getElem?_map, Option.map_eq_some_iff] at hsource
  obtain ⟨before, hbefore, rfl⟩ := hsource
  rw [compile_notified] at hother
  rw [holds_notified]
  rcases get_set hcall hbefore with ⟨rfl, rfl⟩ | ⟨-, hsame⟩
  · -- What it waited for is published.
    right
    rw [hcall, Option.some.injEq] at hfound
    subst hfound
    have hresult : other = result := by
      rw [hended] at hother
      cases hother
      rfl
    rw [← hfoundKey]
    exact hkept (hresult ▸ hlasting)
  · rcases h old hmem holdWaits w hw before hsame other hother hlasting with hbefore | hin
    · exact .inl hbefore
    · right
      rcases hstays old.key hin with hin' | hgoes
      · exact hin'
      · -- It would have made room: the caller has not been woken, or the step does not keep it.
        exfalso
        rcases holdWaits with hentering | hwaiting
        · exact hkeeps call result hcall hphase old.key hgoes old hmem rfl
            ⟨hentering, w, hw, before, hsame, other, hother, hlasting⟩
        · obtain ⟨hnone, hnone'⟩ := hsound.tabled.idle old.key (hsound.held.waits old hmem hwaiting)
          exact hin.elim hnone hnone'

end Steps

/-! ### Callers compile once -/

/-- A step after which every call that compiles did so before, or waited for failures. -/
theorem Once.grows (h : Once s) (hgrows : Grows s.calls t.calls)
    (hcalls : ∀ call ∈ t.calls, call.compile ≠ .none →
      (∃ old ∈ s.calls, old.compile ≠ .none ∧ old.waited = call.waited) ∨
        ∀ w ∈ call.waited, ∃ other error, s.calls[w]? = some other ∧
          other.compile = .ended (.failed error)) : Once t := by
  intro call hcall hstarted w hw
  have hbefore : ∃ other error, s.calls[w]? = some other ∧
      other.compile = .ended (.failed error) := by
    rcases hcalls call hcall hstarted with ⟨old, hold, hstartedOld, hwaited⟩ | hall
    · exact h old hold hstartedOld w (hwaited ▸ hw)
    · exact hall w hw
  obtain ⟨other, error, hother, hended⟩ := hbefore
  obtain ⟨new, hnew, -, hkeeps, -⟩ := hgrows w other hother
  exact ⟨new, error, hnew, hkeeps _ hended⟩

/-- A call changes without starting a compile. -/
theorem Once.change (h : Once s) (hcall : s.calls[c]? = some call)
    (hgrows : Grows s.calls t.calls) (hcalls : t.calls = s.calls.set c call')
    (hself : call'.compile ≠ .none → call.compile ≠ .none ∧ call.waited = call'.waited) :
    Once t := by
  refine h.grows hgrows fun other hother hstarted => .inl ?_
  rw [hcalls] at hother
  rcases List.mem_or_eq_of_mem_set hother with hold | rfl
  · exact ⟨other, hold, hstarted, rfl⟩
  · exact ⟨call, List.mem_of_getElem? hcall, hself hstarted⟩

/-- A caller whose key is neither pending nor in a table waited for failures. -/
theorem Sound.failures (hsound : Sound s) (hdue : Due s) (hmem : call ∈ s.calls)
    (hphase : call.phase = .entering) (hentries : call.key ∉ keys s.entries)
    (hrejections : call.key ∉ keys s.rejections) (hfree : call.key ∉ s.pending) :
    ∀ w ∈ call.waited, ∃ other error, s.calls[w]? = some other ∧
      other.compile = .ended (.failed error) := by
  intro w hw
  obtain ⟨other, hother, hkey, hstarted⟩ := (hsound.told.calls call hmem).waited w hw
  have hended : ∀ result, other.compile = .ended result →
      ∃ error, other.compile = .ended (.failed error) := by
    intro result hended
    cases hlasting : result.lasting with
    | false =>
        cases result with
        | compiled artifact => cases hlasting
        | rejected reason => cases hlasting
        | failed error => exact ⟨error, hended⟩
    | true =>
        exfalso
        rcases hdue call hmem (.inl hphase) w hw other hother result hended hlasting with
          hholds | hentry | hrejection
        · exact hfree (hkey ▸ hsound.held.marked w other hother hholds)
        · exact hentries hentry
        · exact hrejections hrejection
  have hshaped := (hsound.told.calls other (List.mem_of_getElem? hother)).shaped
  unfold Call.Shaped at hshaped
  cases hother' : other.phase with
  | entering =>
      rw [hother'] at hshaped
      exact absurd hshaped hstarted
  | waiting =>
      rw [hother'] at hshaped
      exact absurd hshaped hstarted
  | compiling =>
      have hholds : other.holds = true := by rw [Call.holds, hother']
      exact absurd (hkey ▸ hsound.held.marked w other hother hholds) hfree
  | publishing result =>
      rw [hother'] at hshaped
      obtain ⟨error, herror⟩ := hended result hshaped
      exact ⟨other, error, hother, herror⟩
  | returned result =>
      rw [hother'] at hshaped
      rcases hshaped with ⟨-, hnone⟩ | hresult
      · exact absurd hnone hstarted
      · obtain ⟨error, herror⟩ := hended result hresult
        exact ⟨other, error, hother, herror⟩

theorem Once.finish (h : Once s) (hsound : Sound s) (hcall : s.calls[c]? = some call)
    (hphase : call.phase = .compiling) (result : Result ν ρ ε) :
    Once { s with
      calls := s.calls.set c
        { call with phase := .publishing result, compile := .ended result } } := by
  have hrunning : call.compile = .running := by
    have hshaped := (hsound.told.calls call (List.mem_of_getElem? hcall)).shaped
    rwa [Call.Shaped, hphase] at hshaped
  have hgrows : Grows s.calls (s.calls.set c
      { call with phase := .publishing result, compile := .ended result }) := by
    refine .set hcall rfl (fun other hended => ?_) (fun _ hnone => ?_)
    · rw [hrunning] at hended
      cases hended
    · cases hnone
  refine h.change hcall hgrows rfl fun _ => ⟨?_, rfl⟩
  intro hnone
  rw [hrunning] at hnone
  cases hnone

section Main

variable [DecidableEq κ]

theorem Once.examine (h : Once s) (hsound : Sound s) (hdue : Due s)
    (hcall : s.calls[c]? = some call) (hphase : call.phase = .entering) :
    Once (s.examine c call) := by
  have hmem := List.mem_of_getElem? hcall
  have hnone : call.compile = .none := by
    have hshaped := (hsound.told.calls call hmem).shaped
    rwa [Call.Shaped, hphase] at hshaped
  unfold State.examine
  split
  · exact h.change hcall (.set hcall rfl (fun _ hended => hended) (fun hstarted => hstarted)) rfl
      fun hstarted => ⟨hstarted, rfl⟩
  · rename_i hentries
    split
    · exact h.change hcall (.set hcall rfl (fun _ hended => hended) (fun hstarted => hstarted))
        rfl fun hstarted => ⟨hstarted, rfl⟩
    · rename_i hrejections
      split
      · rename_i hfree
        have hfailures := hsound.failures hdue hmem hphase (get?_eq_none.mp hentries)
          (get?_eq_none.mp hrejections) hfree
        have hgrows : Grows s.calls
            (s.calls.set c { call with phase := .compiling, compile := .running }) := by
          refine .set hcall rfl (fun result hended => ?_) (fun _ hstarted => ?_)
          · rw [hnone] at hended
            cases hended
          · cases hstarted
        refine h.grows hgrows fun other hother hstarted => ?_
        rcases List.mem_or_eq_of_mem_set hother with hold | rfl
        · exact .inl ⟨other, hold, hstarted, rfl⟩
        · exact .inr hfailures
      · refine h.change hcall
          (.set hcall rfl (fun _ hended => hended) (fun hstarted => hstarted)) rfl
          fun hstarted => ?_
        exact absurd hnone hstarted

theorem Once.publish (h : Once s) (hcall : s.calls[c]? = some call) (result : Result ν ρ ε) :
    Once (s.publish c call result) := by
  have hset : Grows s.calls (s.calls.set c { call with phase := .returned result }) :=
    .set hcall rfl (fun _ hended => hended) (fun hstarted => hstarted)
  have hgrows : Grows s.calls (s.publish c call result).calls := hset.notified
  refine h.grows hgrows fun other hother hstarted => .inl ?_
  obtain ⟨old, hold, rfl⟩ := List.mem_map.mp hother
  rw [compile_notified] at hstarted
  rw [waited_notified]
  rcases List.mem_or_eq_of_mem_set hold with hmem | rfl
  · exact ⟨old, hmem, hstarted, rfl⟩
  · exact ⟨call, List.mem_of_getElem? hcall, hstarted, rfl⟩

theorem due_once_step (hsound : Sound s) (h : Due s ∧ Once s) {a : Action κ ν ρ ε}
    (hkeeps : Keeps s a) (hstep : step s a = some t) : Due t ∧ Once t := by
  cases a with
  | call key =>
      cases hstep
      refine ⟨h.1.arrive hsound key, h.2.grows (.append _ _) fun other hother hstarted => .inl ?_⟩
      rcases List.mem_append.mp hother with hold | hnew
      · exact ⟨other, hold, hstarted, rfl⟩
      · rw [List.mem_singleton.mp hnew] at hstarted
        exact absurd rfl hstarted
  | examine c =>
      rw [step] at hstep
      split at hstep
      · rename_i hcall
        split at hstep
        · rename_i hphase
          cases hstep
          exact ⟨h.1.examine hsound hcall hphase, h.2.examine hsound h.1 hcall hphase⟩
        · cases hstep
      · cases hstep
  | finish c result =>
      rw [step] at hstep
      split at hstep
      · rename_i hcall
        split at hstep
        · rename_i hphase
          cases hstep
          exact ⟨h.1.finish hcall result, h.2.finish hsound hcall hphase result⟩
        · cases hstep
      · cases hstep
  | publish c =>
      rw [step] at hstep
      split at hstep
      · rename_i hcall
        split at hstep
        · rename_i hphase
          cases hstep
          exact ⟨h.1.publish hsound hkeeps hcall hphase, h.2.publish hcall _⟩
        · cases hstep
      · cases hstep

/-- The key that makes room is in neither table afterwards, and nobody compiles it. -/
theorem evicted (hsound : Sound s) (hpending : key ∈ s.pending) {old : κ}
    (h : s.evicts result = some old) :
    old ∉ keys (s.keep key result).entries ∧ old ∉ keys (s.keep key result).rejections ∧
      old ∉ s.pending := by
  have htabled := hsound.tabled
  have hkey := htabled.idle key hpending
  cases result with
  | compiled artifact =>
      have hold := mem_of_oldest h
      have hne : old ≠ key := fun heq => hkey.1 (heq ▸ hold)
      rw [keep_compiled hkey.1]
      exact ⟨oldest_notMem_trim artifact h htabled.entries_le htabled.entries_nodup hne,
        htabled.apart old hold, fun hmem => (htabled.idle old hmem).1 hold⟩
  | rejected reason =>
      have hold := mem_of_oldest h
      have hne : old ≠ key := fun heq => hkey.2 (heq ▸ hold)
      rw [keep_rejected hkey.2]
      exact ⟨fun hentry => htabled.apart old hentry hold,
        oldest_notMem_trim reason h htabled.rejections_le htabled.rejections_nodup hne,
        fun hmem => (htabled.idle old hmem).2 hold⟩
  | failed error => cases h

/-- A publication that takes a key away from a caller to whom it is due: the caller's next look
    starts a compile that it should not. -/
theorem forgets (hsound : Sound s) {a : Action κ ν ρ ε} (hstep : step s a = some t)
    (hnot : ¬ Keeps s a) : ∃ j u, step t (.examine j) = some u ∧ ¬ Once u := by
  cases a with
  | call key => exact absurd trivial hnot
  | examine c => exact absurd trivial hnot
  | finish c result => exact absurd trivial hnot
  | publish c =>
      unfold Keeps at hnot
      push Not at hnot
      obtain ⟨call, result, hcall, hphase, key, hevicts, other, hmem, rfl, hentering, w, hw, source,
        hsource, lasting, hended, hlasting⟩ := hnot
      have hholds : call.holds = true := by rw [Call.holds, hphase]
      have hpending := hsound.held.marked c call hcall hholds
      obtain ⟨hentries, hrejections, hidle⟩ := evicted hsound hpending hevicts
      simp only [step, hcall, hphase, Option.some.injEq] at hstep
      subst hstep
      obtain ⟨j, hlt, hj⟩ := List.mem_iff_getElem.mp hmem
      have hget : s.calls[j]? = some other := hj ▸ List.getElem?_eq_getElem hlt
      have hne : c ≠ j := by
        intro hcj
        subst hcj
        rw [hcall, Option.some.injEq] at hget
        rw [← hget, hphase] at hentering
        cases hentering
      have hwaiter : (s.publish c call result).calls[j]? = some other := by
        change ((s.calls.set c { call with phase := .returned result }).map Call.notified)[j]? = _
        rw [List.getElem?_map, List.getElem?_set_ne hne, hget, Option.map_some]
        rcases phase_notified other with ⟨hwaiting, -⟩ | ⟨-, hself⟩
        · rw [hentering] at hwaiting
          cases hwaiting
        · rw [hself]
      have hfree : other.key ∉ (s.publish c call result).pending := fun hmem =>
        hidle (List.mem_filter.mp hmem).1
      have hlook : (s.publish c call result).examine j other =
          { s.publish c call result with
            pending := other.key :: (s.publish c call result).pending
            calls := (s.publish c call result).calls.set j
              { other with phase := .compiling, compile := .running } } := by
        have hnone : get? (s.publish c call result).entries other.key = none :=
          get?_eq_none.mpr hentries
        have hnone' : get? (s.publish c call result).rejections other.key = none :=
          get?_eq_none.mpr hrejections
        unfold State.examine
        rw [hnone, hnone']
        exact if_pos hfree
      refine ⟨j, (s.publish c call result).examine j other, ?_, ?_⟩
      · simp only [step, hwaiter, hentering]
      · rw [hlook]
        intro honce
        have hunstarted : other.compile = .none := by
          have hshaped := (hsound.told.calls other hmem).shaped
          rwa [Call.Shaped, hentering] at hshaped
        have hset : Grows s.calls (s.calls.set c { call with phase := .returned result }) :=
          .set hcall rfl (fun _ hended => hended) (fun hstarted => hstarted)
        have hnext : Grows (s.publish c call result).calls
            ((s.publish c call result).calls.set j
              { other with phase := .compiling, compile := .running }) := by
          refine .set hwaiter rfl (fun result hended => ?_) (fun _ hstarted => ?_)
          · rw [hunstarted] at hended
            cases hended
          · cases hstarted
        obtain ⟨found, error, hfound, hfailed⟩ := honce _ (List.mem_of_getElem? (set_self hwaiter))
          (fun hstarted => by cases hstarted) w hw
        obtain ⟨middle, hmiddle, -, hmiddleEnded, -⟩ := hset.notified w source hsource
        obtain ⟨last, hlast, -, hlastEnded, -⟩ := hnext w middle hmiddle
        dsimp only at hfound
        rw [hlast, Option.some.injEq] at hfound
        have hresult := hlastEnded _ (hmiddleEnded _ hended)
        rw [hfound, hfailed] at hresult
        cases hresult
        cases hlasting

end Main

/-! ### Main results -/

/-- What holds of the cache whatever its callers do. -/
structure Guarded (s : State κ ν ρ ε) : Prop where
  compiles : ∀ (c c' : Nat) (call call' : Call κ ν ρ ε), s.calls[c]? = some call →
    s.calls[c']? = some call' → call.compile = .running → call'.compile = .running →
    call.key = call'.key → c = c'
  bounded : (keys s.entries).Nodup ∧ s.entries.length ≤ s.capacity ∧
    (keys s.rejections).Nodup ∧ s.rejections.length ≤ s.capacity
  apart : ∀ key ∈ keys s.entries, key ∉ keys s.rejections
  pending : ∀ key, key ∈ s.pending ↔ ∃ (c : Nat) (call : Call κ ν ρ ε),
    s.calls[c]? = some call ∧ call.key = key ∧
      (call.phase = .compiling ∨ ∃ result, call.phase = .publishing result)
  waits : ∀ call ∈ s.calls, call.phase = .waiting → ∃ (c : Nat) (other : Call κ ν ρ ε),
    s.calls[c]? = some other ∧ other.key = call.key ∧
      (other.phase = .compiling ∨ ∃ result, other.phase = .publishing result)
  results : ∀ call ∈ s.calls, ∀ result, call.phase = .returned result →
    Ended s.calls call.key result
  failures : ∀ call ∈ s.calls, ∀ error, call.phase = .returned (.failed error) →
    call.compile = .ended (.failed error)

theorem holds_iff (call : Call κ ν ρ ε) :
    call.holds = true ↔ call.phase = .compiling ∨ ∃ result, call.phase = .publishing result := by
  unfold Call.holds
  cases call.phase <;> simp

theorem Sound.guarded (h : Sound s) : Guarded s where
  compiles := by
    have hholds : ∀ call ∈ s.calls, call.compile = .running → call.holds = true := by
      intro call hmem hrunning
      have hshaped := (h.told.calls call hmem).shaped
      unfold Call.Shaped at hshaped
      unfold Call.holds
      cases hphase : call.phase with
      | compiling => rfl
      | publishing result => rfl
      | returned result =>
          rw [hphase, hrunning] at hshaped
          rcases hshaped with ⟨-, hnone⟩ | hended
          · cases hnone
          · cases hended
      | _ =>
          rw [hphase, hrunning] at hshaped
          cases hshaped
    intro c c' call call' hcall hcall' hrunning hrunning' hkey
    exact h.held.single c c' call call' hcall hcall'
      (hholds call (List.mem_of_getElem? hcall) hrunning)
      (hholds call' (List.mem_of_getElem? hcall') hrunning') hkey
  bounded := ⟨h.tabled.entries_nodup, h.tabled.entries_le, h.tabled.rejections_nodup,
    h.tabled.rejections_le⟩
  apart := h.tabled.apart
  pending := by
    intro key
    constructor
    · intro hpending
      obtain ⟨c, call, hcall, hkey, hholds⟩ := h.held.owned key hpending
      exact ⟨c, call, hcall, hkey, (holds_iff call).mp hholds⟩
    · intro hholder
      obtain ⟨c, call, hcall, rfl, hphase⟩ := hholder
      exact h.held.marked c call hcall ((holds_iff call).mpr hphase)
  waits := by
    intro call hmem hwaiting
    obtain ⟨c, other, hother, hkey, hholds⟩ := h.held.owned _ (h.held.waits call hmem hwaiting)
    exact ⟨c, other, hother, hkey, (holds_iff other).mp hholds⟩
  results := fun call hmem => (h.told.calls call hmem).returned
  failures := by
    intro call hmem error hphase
    have hshaped := (h.told.calls call hmem).shaped
    rw [Call.Shaped, hphase] at hshaped
    rcases hshaped with ⟨hlasting, -⟩ | hended
    · cases hlasting
    · exact hended

/-- In every reachable state of the cache at most one compile of a key runs, the tables are in
    their bounds and apart, the pending keys are those that somebody compiles, and every caller
    has the result of a compile of its key.  In the runs whose publications take no key from a
    caller to whom it is due, a caller that waited for a lasting result never compiles; after
    any other publication the next look of some caller is such a compile. -/
theorem get_or_compile_once [DecidableEq κ] (capacity : Nat) :
    (∀ s : State κ ν ρ ε, (system capacity).Reachable s → Guarded s) ∧
    (∀ s : State κ ν ρ ε, (system capacity).Run Keeps s → Once s) ∧
    ∀ (s t : State κ ν ρ ε) (a : Action κ ν ρ ε), (system capacity).Reachable s →
      step s a = some t → ¬ Keeps s a → ∃ c u, step t (.examine c) = some u ∧ ¬ Once u := by
  refine ⟨fun s hreach => (sound_of_reachable hreach).guarded, fun s hrun => ?_,
    fun s t a hreach hstep hnot => forgets (sound_of_reachable hreach) hstep hnot⟩
  have hboth : Due s ∧ Once s := by
    refine System.Run.invariant_with (I := fun s => Due s ∧ Once s)
      (fun _ => sound_of_reachable) ?_ ?_ hrun
    · intro s hs
      rw [hs.2]
      exact ⟨.start capacity, .start capacity⟩
    · intro s a t hsound _ h hkeeps hstep
      exact due_once_step hsound h hkeeps hstep
  exact hboth.2

/-- Two callers of one key: the second one waits, and has the artifact of the first. -/
theorem get_or_compile_shared : ∃ s : State Nat Nat Nat Nat,
    (system 1).Run Keeps s ∧ Guarded s ∧ Once s ∧
      s.calls.map Call.phase = [.returned (.compiled 7), .returned (.compiled 7)] := by
  have hstart : (system 1).Run Keeps (start 1 : State Nat Nat Nat Nat) :=
    .start ⟨Nat.le_refl 1, rfl⟩
  have hended : ∃ s : State Nat Nat Nat Nat, (system 1).perform
      [.call 3, .call 3, .examine 0, .examine 1, .finish 0 (.compiled 7)] (start 1) = some s ∧
      s.capacity = 1 ∧ s.entries = [] ∧
      s.calls[0]?.map Call.phase = some (.publishing (.compiled 7)) ∧
      ∃ t, (system 1).step s (.publish 0) = some t ∧
        ∃ u, (system 1).step t (.examine 1) = some u ∧
          u.calls.map Call.phase = [.returned (.compiled 7), .returned (.compiled 7)] :=
    ⟨_, rfl, rfl, rfl, rfl, _, rfl, _, rfl, rfl⟩
  obtain ⟨s, hs, hcapacity, hentries, hpublishing, t, ht, u, hu, hphases⟩ := hended
  have hquiet : ∀ a ∈ ([.call 3, .call 3, .examine 0, .examine 1, .finish 0 (.compiled 7)] :
      List (Action Nat Nat Nat Nat)), ∀ s, Keeps s a := by
    simp only [List.forall_mem_cons, Keeps]
    simp
  have hkeeps : Keeps s (.publish 0) := by
    intro call result hcall hphase key hevicts
    rw [hcall, Option.map_some, hphase] at hpublishing
    cases hpublishing
    rw [State.evicts, hcapacity, hentries] at hevicts
    cases hevicts
  have hlook : Keeps t (.examine 1) := trivial
  have hrun := ((System.Run.perform hstart hquiet hs).next _ hkeeps ht).next _ hlook hu
  exact ⟨u, hrun, (get_or_compile_once 1).1 u hrun.reachable, (get_or_compile_once 1).2.1 u hrun,
    hphases⟩

/-- The artifact of key 3 makes room for that of key 4 before the caller that waited for it has
    looked again: this caller compiles key 3 once more. -/
theorem get_or_compile_twice : ∃ s : State Nat Nat Nat Nat, (system 1).Reachable s ∧ ¬ Once s := by
  have hstart : (system 1).initial (start 1 : State Nat Nat Nat Nat) := ⟨Nat.le_refl 1, rfl⟩
  have hperform : ∃ s : State Nat Nat Nat Nat, (system 1).perform
      [.call 3, .call 3, .call 4, .examine 0, .examine 1, .examine 2, .finish 0 (.compiled 7),
        .publish 0, .finish 2 (.compiled 8), .publish 2, .examine 1] (start 1) = some s ∧
      s.calls[0]? = some ⟨3, .returned (.compiled 7), .ended (.compiled 7), []⟩ ∧
      s.calls[1]? = some ⟨3, .compiling, .running, [0]⟩ := ⟨_, rfl, rfl, rfl⟩
  obtain ⟨s, hs, hfirst, hsecond⟩ := hperform
  refine ⟨s, System.reachable_of_perform hstart hs, fun honce => ?_⟩
  obtain ⟨other, error, hother, hended⟩ := honce _ (List.mem_of_getElem? hsecond) nofun 0 (by simp)
  rw [hfirst] at hother
  cases hother
  cases hended

end SymReloc.ArtifactCache
