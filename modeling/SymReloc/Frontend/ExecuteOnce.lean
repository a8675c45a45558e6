import SymReloc.Frontend.Execution

/-!
# One execution for a call

Whatever the artifact, the adapter, the placement policy and the original region do, a
call of the boundary runs the region once at most, in one form; it returns only after it
has; a result whose metadata was promised keeps the promise and is no alias of the source;
and the thread finds its state as it was, however the call ends.
-/

namespace SymReloc.Frontend

open Throwing Effect

variable {W α β : Type}

/-! ### Calls that launch nothing, and calls that launch -/

/-- The thread's state and the launches are the same. -/
def Same (s t : Run W) : Prop := t.thread = s.thread ∧ t.invoked = s.invoked

theorem Same.trans {s t u : Run W} (h : Same s t) (h' : Same t u) : Same s u :=
  ⟨h'.1.trans h.1, h'.2.trans h.2⟩

/-- However it ends it has launched nothing; what it returns is good. -/
def Quiet (m : Action W α) (good : α → Prop) : Prop :=
  ∀ s, m.Ends s (fun a t => good a ∧ Same s t) fun _ t => Same s t

/-- It returns after one launch, something good; it throws after one at most. -/
def Launches (m : Action W α) (good : α → Prop) : Prop :=
  ∀ s, m.Ends s
    (fun a t => good a ∧ t.thread = s.thread ∧ ∃ which, t.invoked = s.invoked ++ [which])
    fun _ t => t.thread = s.thread ∧
      ∃ launched, t.invoked = s.invoked ++ launched ∧ launched.length ≤ 1

variable {m : Action W α} {good good' : α → Prop}

theorem Quiet.mono (h : Quiet m good) (hgood : ∀ a, good a → good' a) : Quiet m good' :=
  fun s => (h s).mono (fun a _ ha => ⟨hgood a ha.1, ha.2⟩) fun _ _ ht => ht

theorem quiet_pure {value : α} (h : good value) : Quiet (pure value : Action W α) good :=
  fun _ => ⟨h, rfl, rfl⟩

theorem quiet_throw {error : Raised} : Quiet (throw error : Action W α) good :=
  fun _ => ⟨rfl, rfl⟩

theorem quiet_read {value : Run W → α} : Quiet (read value : Action W α) fun _ => True :=
  fun _ => ⟨trivial, rfl, rfl⟩

theorem quiet_settle {outcome : Except Raised α} (h : ∀ value, outcome = .ok value → good value) :
    Quiet (settle outcome : Action W α) good := by
  cases outcome with
  | ok value => exact quiet_pure (h value rfl)
  | error error => exact quiet_throw

theorem quiet_call (callback : Callback W α) : Quiet (call callback) fun _ => True := by
  intro s
  unfold Ends call
  cases (callback s.thread s.world).1 with
  | returned a => exact ⟨trivial, rfl, rfl⟩
  | thrown error => exact ⟨rfl, rfl⟩

theorem Quiet.bind {next : α → Action W β} {good' : β → Prop} (h : Quiet m good)
    (hnext : ∀ a, good a → Quiet (next a) good') : Quiet (m >>= next) good' := by
  intro s
  rw [ends_bind]
  refine (h s).mono (fun a t ha => ?_) fun _ _ ht => ht
  exact (hnext a ha.1 t).mono (fun b u hb => ⟨hb.1, ha.2.trans hb.2⟩) fun _ _ hu => ha.2.trans hu

theorem Quiet.handle {handler : Raised → Action W α} (h : Quiet m good)
    (hhandler : ∀ error, Quiet (handler error) good) : Quiet (m.handle handler) good := by
  intro s
  rw [ends_handle]
  refine (h s).mono (fun _ _ ha => ha) fun error t ht => ?_
  exact (hhandler error t).mono (fun a u ha => ⟨ha.1, ht.trans ha.2⟩) fun _ _ hu => ht.trans hu

theorem Launches.mono (h : Launches m good) (hgood : ∀ a, good a → good' a) : Launches m good' :=
  fun s => (h s).mono (fun a _ ha => ⟨hgood a ha.1, ha.2⟩) fun _ _ ht => ht

theorem launches_throw {error : Raised} : Launches (throw error : Action W α) good :=
  fun _ => ⟨rfl, [], by simp, by simp⟩

theorem launches_invoke (which : Invocation) (callback : Callback W α) :
    Launches (invoke which callback) fun _ => True := by
  intro s
  rw [invoke, ends_bind, ends_update]
  refine (quiet_call callback _).mono (fun a t ha => ?_) fun _ t ht => ?_
  · exact ⟨trivial, ha.2.1, which, ha.2.2⟩
  · exact ⟨ht.1, [which], ht.2, le_refl 1⟩

/-- First nothing is launched. -/
theorem Quiet.launches {next : α → Action W β} {good' : β → Prop} (h : Quiet m good)
    (hnext : ∀ a, good a → Launches (next a) good') : Launches (m >>= next) good' := by
  intro s
  rw [ends_bind]
  refine (h s).mono (fun a t ha => ?_) fun _ t ht => ⟨ht.1, [], by simp [ht.2], by simp⟩
  refine (hnext a ha.1 t).mono (fun b u hb => ?_) fun _ u hu => ?_
  · rw [ha.2.1, ha.2.2] at hb
    exact hb
  · rw [ha.2.1, ha.2.2] at hu
    exact hu

theorem quiet_settled {outcome : Except Raised α} :
    Quiet (settle outcome : Action W α) fun _ => True :=
  quiet_settle fun _ _ => trivial

/-- After the launch nothing else is launched. -/
theorem Launches.bind {next : α → Action W β} {good' : β → Prop} (h : Launches m good)
    (hnext : ∀ a, good a → Quiet (next a) good') : Launches (m >>= next) good' := by
  intro s
  rw [ends_bind]
  refine (h s).mono (fun a t ha => ?_) fun _ _ ht => ht
  obtain ⟨hgood, hthread, which, hinvoked⟩ := ha
  refine (hnext a hgood t).mono (fun b u hb => ?_) fun _ u hu => ?_
  · exact ⟨hb.1, hb.2.1.trans hthread, which, hb.2.2.trans hinvoked⟩
  · exact ⟨hu.1.trans hthread, [which], hu.2.trans hinvoked, le_refl 1⟩

/-- A handler that only throws launches nothing again. -/
theorem Launches.handle {handler : Raised → Action W α} (h : Launches m good)
    (hhandler : ∀ error, Quiet (handler error) fun _ => False) :
    Launches (m.handle handler) good := by
  intro s
  rw [ends_handle]
  refine (h s).mono (fun _ _ ha => ha) fun error t ht => ?_
  obtain ⟨hthread, launched, hinvoked, hlength⟩ := ht
  refine (hhandler error t).mono (fun _ _ ha => ha.1.elim) fun _ u hu => ?_
  exact ⟨hu.1.trans hthread, launched, hu.2.trans hinvoked, hlength⟩

/-! ### The state that is restored -/

theorem Quiet.countingBinds {diagnostics : Diagnostics W} (h : Quiet m good) :
    Quiet (countingBinds diagnostics m) good := by
  intro s
  simp only [Frontend.countingBinds, ends_bind, ends_read, ends_update, ends_ensuring]
  refine (h _).mono (fun a t ha => ⟨ha.1, ?_, ha.2.2⟩) fun _ t ht => ⟨?_, ht.2⟩
  · rw [ha.2.1]
  · rw [ht.1]

theorem Quiet.validatedBinding {torch : Torch W} {compiled : CompiledRecipe W} {src : Tensor}
    {bindings : Bindings} {destination : Option ConcreteDescriptor} (h : Quiet m good) :
    Quiet (validatedBinding torch compiled src bindings destination m) good := by
  intro s
  simp only [Frontend.validatedBinding, ends_bind, ends_read]
  refine (quiet_call (torch.storageSnapshot src) s).mono (fun snapshot t ha => ?_) fun _ _ ht => ht
  simp only [ends_update, ends_ensuring]
  refine (h _).mono (fun a u hb => ⟨hb.1, ?_, hb.2.2.trans ha.2.2⟩) fun _ u hu =>
    ⟨?_, hu.2.trans ha.2.2⟩
  · rw [hb.2.1, ← ha.2.1]
  · rw [hu.1, ← ha.2.1]

/-! ### The pieces -/

/-- The result is a tensor of its own that keeps the promise. -/
def Kept (torch : Torch W) (src : Tensor) (promised : ConcreteDescriptor) (value : Value) : Prop :=
  ∃ tensor, value = .tensor tensor ∧ torch.isAlias tensor src = false ∧ tensor.Fulfils promised

section Call

variable {torch : Torch W} {entry : ExecutionEntry W} {src : Tensor} {symbols : Option (List Int)}
  {device : Device} {parameters : List Tensor}

theorem quiet_verifyResult {result : Value} {promised : ConcreteDescriptor} :
    Quiet (settle (verifyResult torch.isAlias result src promised) : Action W Value)
      (Kept torch src promised) := by
  refine quiet_settle fun value hvalue => ?_
  obtain ⟨rfl, tensor, htensor, halias, hfulfils⟩ := verifyResult_eq_ok hvalue
  exact ⟨tensor, htensor, halias, hfulfils⟩

theorem launches_fallback (reason : String) (promised : Option ConcreteDescriptor) :
    Launches (fallback torch entry src symbols parameters reason promised)
      fun value => ∀ destination ∈ promised, Kept torch src destination value := by
  unfold fallback
  refine quiet_settled.launches fun values _ => ?_
  refine (quiet_call _).launches fun _ _ => ?_
  have hregion : Launches (entry.fallback src values parameters) fun _ => True := by
    intro s
    rw [ExecutionEntry.fallback, ends_bind, ends_update]
    exact quiet_settled.launches (fun _ _ => launches_invoke _ _) _
  refine hregion.bind fun result _ => ?_
  cases promised with
  | none => exact quiet_pure (by simp)
  | some destination =>
      exact quiet_verifyResult.mono fun value hvalue other hother => by
        cases hother
        exact hvalue

theorem quiet_refuseGuard {error : Raised} : Quiet (refuseGuard error : Action W α) good := by
  unfold refuseGuard
  split
  · exact quiet_throw
  · exact quiet_throw

theorem quiet_bindSymbols (torch : Torch W) (compiled : CompiledRecipe W) (src : Tensor) :
    Quiet (bindSymbols torch compiled src) fun _ => True := by
  have hfresh : Quiet ((call (compiled.bindValues src none)).handle refuseGuard) fun _ => True :=
    (quiet_call _).handle fun _ => quiet_refuseGuard
  unfold bindSymbols
  refine quiet_read.bind fun validated _ => ?_
  split
  · exact hfresh
  · split
    · refine (quiet_call _).bind fun snapshot _ => ?_
      split
      · exact quiet_pure trivial
      · exact hfresh
    · exact hfresh

theorem quiet_bindIndexSelect (torch : Torch W) (compiled : CompiledRecipe W)
    (source index : Tensor) :
    Quiet (bindIndexSelect torch compiled source index) fun _ => True := by
  unfold bindIndexSelect
  refine quiet_read.bind fun enabled _ => ?_
  split
  · exact quiet_throw
  · split
    · exact quiet_throw
    · split
      · exact quiet_throw
      · exact (quiet_call _).handle fun _ => quiet_refuseGuard

theorem quiet_runAdmission :
    Quiet (runAdmission torch entry src device parameters) fun _ => True := by
  have hbind : Quiet (bindSource torch entry src device parameters) fun _ => True := by
    have hbindings : Quiet (bindOperands torch entry src parameters) fun _ => True := by
      unfold bindOperands
      split
      · split
        · exact quiet_bindIndexSelect torch entry.compiled src _
        · exact quiet_throw
      · exact quiet_bindSymbols torch entry.compiled src
    unfold bindSource
    refine hbindings.bind fun bindings _ => ?_
    refine quiet_settled.bind fun destination _ => ?_
    exact quiet_settled.bind fun _ _ => quiet_pure trivial
  unfold runAdmission
  refine quiet_read.bind fun enabled _ => ?_
  split
  · exact quiet_pure trivial
  · refine hbind.handle fun error => ?_
    split
    · exact quiet_pure trivial
    · exact quiet_throw

theorem quiet_launchFailure {what : String} {error : Raised} :
    Quiet (launchFailure entry what error : Action W α) fun _ => False := by
  unfold launchFailure
  split
  · exact quiet_throw
  · exact quiet_throw

theorem launches_place (policy : PlacementPolicy W) (decision : Decision)
    (promised : ConcreteDescriptor) :
    Launches (place torch entry src symbols device parameters policy decision promised)
      (Kept torch src promised) := by
  have hrun : Launches (runDirect torch entry src symbols device parameters decision.path)
      fun _ => True := by
    unfold runDirect
    split
    · refine quiet_settled.launches fun scalars _ => ?_
      refine (launches_invoke _ _).bind fun result _ => ?_
      exact (quiet_call _).bind fun _ _ => quiet_pure trivial
    · exact launches_invoke _ _
  unfold place
  refine Launches.bind ((hrun.bind fun result _ => quiet_verifyResult).handle fun _ =>
    quiet_launchFailure) fun result hresult => ?_
  exact (quiet_call _).bind fun _ _ => quiet_pure hresult

theorem quiet_preflight {decision : Option (PlacementPolicy W × Decision)}
    {options : PreflightOptions} {bindings : Bindings} {destination : ConcreteDescriptor} :
    Quiet (preflight torch entry src device decision options bindings destination)
      fun _ => True := by
  unfold preflight
  refine Quiet.handle ?_ fun error => ?_
  · exact (quiet_call _).validatedBinding.countingBinds.bind fun prepared _ => quiet_pure trivial
  · split
    · exact quiet_throw
    · exact quiet_throw
    · exact quiet_pure trivial

theorem quiet_agrees (prepared : PreparedCall W) (bindings : Bindings)
    (destination : ConcreteDescriptor) :
    Quiet (agrees prepared bindings destination) fun _ => True := by
  unfold agrees
  refine (quiet_call _).bind fun found _ => ?_
  split
  · exact quiet_pure trivial
  · exact (quiet_call _).bind fun _ _ => quiet_pure trivial

theorem quiet_recordReport (report : Option (List (String × String))) :
    Quiet (recordReport entry report) fun _ => True := by
  cases report with
  | some report => exact quiet_call _
  | none => exact quiet_pure trivial

theorem quiet_recordSuccess (decision : Option (PlacementPolicy W × Decision)) :
    Quiet (recordSuccess decision) fun _ => True := by
  cases decision with
  | some decision => exact quiet_call _
  | none => exact quiet_pure trivial

theorem launches_launch (decision : Option (PlacementPolicy W × Decision))
    (prepared : PreparedCall W) (bindings : Bindings)
    (destination promised : ConcreteDescriptor) :
    Launches (launch torch entry src decision prepared bindings destination promised)
      (Kept torch src promised) := by
  unfold launch
  refine (quiet_agrees prepared bindings destination).launches fun agreed _ => ?_
  split
  · exact launches_throw
  · refine (quiet_call _).launches fun _ _ => ?_
    refine (quiet_call _).launches fun _ _ => ?_
    refine (quiet_call _).launches fun _ _ => ?_
    refine ((launches_invoke _ _).handle fun _ => quiet_launchFailure).bind fun result _ => ?_
    refine (quiet_call _).bind fun report _ => ?_
    refine (quiet_recordReport report).bind fun _ _ => ?_
    refine (quiet_call _).bind fun staging _ => ?_
    refine (quiet_call _).bind fun _ _ => ?_
    refine quiet_verifyResult.bind fun result hresult => ?_
    exact (quiet_recordSuccess decision).bind fun _ _ => quiet_pure hresult

theorem launches_transfer (decision : Option (PlacementPolicy W × Decision))
    (bindings : Bindings) (destination promised : ConcreteDescriptor) :
    Launches (transfer torch entry src symbols device parameters decision bindings destination
      promised) (Kept torch src promised) := by
  have hfallback : ∀ reason, Launches (fallback torch entry src symbols parameters reason
      (some promised)) (Kept torch src promised) := fun reason =>
    (launches_fallback reason (some promised)).mono fun value hvalue => hvalue promised rfl
  unfold transfer
  dsimp only
  split
  · exact hfallback _
  · refine quiet_preflight.launches fun prepared _ => ?_
    cases prepared with
    | inl reason => exact hfallback reason
    | inr prepared => exact launches_launch decision prepared bindings destination promised

theorem launches_dispatch (bindings : Bindings) (destination promised : ConcreteDescriptor) :
    Launches (dispatch torch entry src symbols device parameters bindings destination promised)
      (Kept torch src promised) := by
  unfold dispatch
  split
  · exact launches_transfer none bindings destination promised
  · rename_i policy _
    refine (quiet_call _).launches fun decision _ => ?_
    split
    · exact launches_transfer none bindings destination promised
    · split
      · exact launches_place policy _ promised
      · exact launches_transfer _ bindings destination promised

/-- The rest of a call whose source is bound. -/
theorem launches_admitted (declared : Option ConcreteDescriptor) (bindings : Bindings)
    (destination : ConcreteDescriptor) :
    Launches (do
      let agree ← settle (symbolsAgree entry symbols bindings)
      if agree = false then
        fallback torch entry src symbols parameters "symbol_mismatch"
          (some (declared.getD destination))
      else do
        settle (checkDeclared entry declared destination)
        dispatch torch entry src symbols device parameters bindings destination
          (declared.getD destination)) (Kept torch src (declared.getD destination)) := by
  refine quiet_settled.launches fun agree _ => ?_
  split
  · exact (launches_fallback _ _).mono fun value hvalue => hvalue _ rfl
  · exact quiet_settled.launches fun _ _ => launches_dispatch bindings destination _

/-- The metadata that the call promises: what was declared, or else the descriptor of an
    admitted source. -/
def Promised (torch : Torch W) (entry : ExecutionEntry W) (src : Tensor) (device : Device)
    (parameters : List Tensor) (nonBlocking : Bool) (declared : Option ConcreteDescriptor)
    (s : Run W) (promised : ConcreteDescriptor) : Prop :=
  declared = some promised ∨ declared = none ∧ nonBlocking = false ∧
    ∃ bindings t, runAdmission torch entry src device parameters s =
      (.returned (.admitted bindings promised), t)

theorem ends_guarded (nonBlocking : Bool) (declared : Option ConcreteDescriptor) (s : Run W) :
    (guarded torch entry src symbols device parameters nonBlocking declared).Ends s
      (fun value t => (∀ promised, Promised torch entry src device parameters nonBlocking declared
          s promised → Kept torch src promised value) ∧
        t.thread = s.thread ∧ ∃ which, t.invoked = s.invoked ++ [which])
      fun _ t => t.thread = s.thread ∧
        ∃ launched, t.invoked = s.invoked ++ launched ∧ launched.length ≤ 1 := by
  unfold guarded
  split
  · rename_i hblocking
    refine (launches_fallback _ declared s).mono (fun value t ht => ⟨?_, ht.2⟩) fun _ _ ht => ht
    rintro promised (hdeclared | ⟨-, hnot, -⟩)
    · exact ht.1 promised hdeclared
    · rw [hblocking] at hnot
      cases hnot
  · rw [ends_bind]
    have hadmit : Quiet (runAdmission torch entry src device parameters) fun _ => True :=
      quiet_runAdmission
    have hquiet := hadmit s
    unfold Ends at hquiet ⊢
    cases hrun : runAdmission torch entry src device parameters s with
    | mk exit t =>
        rw [hrun] at hquiet
        cases exit with
        | thrown error => exact ⟨hquiet.1, [], by simp [hquiet.2], by simp⟩
        | returned admission =>
            obtain ⟨-, hthread, hinvoked⟩ := hquiet
            rw [← hthread, ← hinvoked]
            cases admission with
            | rejected reason =>
                refine (launches_fallback reason declared t).mono
                  (fun value u hu => ⟨?_, hu.2⟩) fun _ _ hu => hu
                rintro promised (hdeclared | ⟨-, -, bindings, u', hadmitted⟩)
                · exact hu.1 promised hdeclared
                · rw [hrun] at hadmitted
                  cases hadmitted
            | admitted bindings destination =>
                refine (launches_admitted declared bindings destination t).mono
                  (fun value u hu => ⟨?_, hu.2⟩) fun _ _ hu => hu
                rintro promised (hdeclared | ⟨hnone, -, bindings', u', hadmitted⟩)
                · rw [hdeclared] at hu
                  exact hu.1
                · rw [hrun] at hadmitted
                  cases hadmitted
                  rw [hnone] at hu
                  exact hu.1

end Call

/-- The state of a call with interception suspended. -/
def Run.suspended (s : Run W) : Run W :=
  { s with thread := { s.thread with depth := s.thread.depth + 1 } }

/-- A call returns after exactly one launch, with a result that keeps what was promised, and
    throws after one at most; either way the thread's state is what it was. -/
theorem executeOrFallback_once (torch : Torch W) (entry : ExecutionEntry W) (src : Tensor)
    (symbols : Option (List Int)) (device : Device) (parameters : List Tensor)
    (nonBlocking : Bool) (declared : Option ConcreteDescriptor) (s : Run W) :
    (executeOrFallback torch entry src symbols device parameters nonBlocking declared).Ends s
      (fun value t => (∀ promised, Promised torch entry src device parameters nonBlocking declared
          s.suspended promised → Kept torch src promised value) ∧
        t.thread = s.thread ∧ ∃ which, t.invoked = s.invoked ++ [which])
      fun _ t => t.thread = s.thread ∧
        ∃ launched, t.invoked = s.invoked ++ launched ∧ launched.length ≤ 1 := by
  unfold executeOrFallback
  rw [ends_bind, ends_read]
  split
  · exact ⟨rfl, [], by simp, by simp⟩
  · split
    · exact ⟨rfl, [], by simp, by simp⟩
    · simp only [suspendInterception, ends_bind, ends_update, ends_ensuring]
      refine (ends_guarded nonBlocking declared s.suspended).mono
        (fun value t ht => ⟨ht.1, ?_, ht.2.2⟩) fun _ t ht => ⟨?_, ht.2⟩
      · rw [ht.2.1]
        simp [Run.suspended]
      · rw [ht.1]
        simp [Run.suspended]

end SymReloc.Frontend
