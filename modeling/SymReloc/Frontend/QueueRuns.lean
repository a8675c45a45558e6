import SymReloc.Frontend.QueueInvariant

/-!
# Runs of a transfer queue

Each method of the queue, of its completions and of its windows keeps the invariant,
whether it returns or raises.
-/

namespace SymReloc.Asynchronous

open Throwing Effect

variable {W α : Type}

/-! ### What leaves the reservations alone -/

/-- A computation that changes only what the invariant does not speak of. -/
def Quiet (m : Action W α) : Prop := ∀ s, Preserves (Frame s) m

theorem Frame.trans {s t u : State W} (h : Frame s t) (h' : Frame t u) : Frame s u where
  limits := h'.limits.trans h.limits
  held := h'.held.trans h.held
  submitted := h'.submitted.trans h.submitted
  bytes := h'.bytes.trans h.bytes
  completions := h'.completions.trans h.completions
  log := h'.log.trans h.log

theorem Quiet.ends {m : Action W α} (hquiet : Quiet m) (s : State W) :
    m.Ends s (fun _ t => Frame s t) fun _ t => Frame s t :=
  hquiet s s (.refl s)

theorem quiet_pure (value : α) : Quiet (pure value : Action W α) := fun _ => preserves_pure

theorem quiet_throw (error : Raised) : Quiet (throw error : Action W α) := fun _ => preserves_throw

theorem quiet_read (value : State W → α) : Quiet (read value) := fun _ => preserves_read

theorem Quiet.bind {β : Type} {m : Action W α} {next : α → Action W β} (h : Quiet m)
    (hnext : ∀ a, Quiet (next a)) : Quiet (m >>= next) :=
  fun s => (h s).bind fun a => hnext a s

theorem quiet_ask (callback : W → Exit Raised α × W) : Quiet (ask callback) := by
  intro s t h
  have hframe : Frame s (ask callback t).2 := h.trans ⟨rfl, rfl, rfl, rfl, rfl, rfl⟩
  unfold Ends
  split
  · rename_i hask
    rw [hask] at hframe
    exact hframe
  · rename_i hask
    rw [hask] at hframe
    exact hframe

theorem quiet_demand (condition : Bool) (error : Raised) :
    Quiet (demand condition error : Action W Unit) := by
  unfold demand
  split
  · exact quiet_pure ()
  · exact quiet_throw error

theorem quiet_checkProcess : Quiet (checkProcess : Action W Unit) :=
  (quiet_read _).bind fun _ => quiet_demand _ _

theorem quiet_checkStream (argument : StreamArgument) :
    Quiet (checkStream argument : Action W Stream) := by
  cases argument with
  | stream stream =>
      exact (quiet_read _).bind fun _ => (quiet_demand _ _).bind fun _ => quiet_pure stream
  | absent => exact quiet_throw _
  | other => exact quiet_throw _

theorem quiet_chosenStream (backend : Backend W) (argument : StreamArgument) (current : Stream) :
    Quiet (chosenStream backend argument current) := by
  cases argument with
  | absent => exact (quiet_ask _).bind fun _ => quiet_pure _
  | stream stream => exact quiet_pure _
  | other => exact quiet_pure _

theorem quiet_canSubmit (group : PreparedTransferGroup) :
    Quiet (canSubmit group : Action W Bool) :=
  quiet_checkProcess.bind fun _ => quiet_read _

theorem quiet_orderProducer (backend : Backend W) (group : PreparedTransferGroup)
    (producer : StreamArgument) (current : Stream) :
    Quiet (orderProducer backend group producer current) := by
  unfold orderProducer
  split
  · exact quiet_pure ()
  · exact (quiet_chosenStream backend producer current).bind fun _ =>
      (quiet_checkStream _).bind fun _ => quiet_ask _

theorem Sound.quiet {m : Action W α} {s : State W} (hsound : Sound s) (hquiet : Quiet m) :
    m.Ends s (fun _ t => Sound t) fun _ t => Sound t :=
  (hquiet.ends s).mono (fun _ _ ht => hsound.frame ht) fun _ _ ht => hsound.frame ht

/-! ### The checks of a completion -/

section

variable {s : State W} {post : α → State W → Prop} {thrown : Raised → State W → Prop} {h : Nat}

theorem ends_demand {condition : Bool} {error : Raised} {post : Unit → State W → Prop}
    (hthrown : thrown error s) (hpost : condition = true → post () s) :
    (demand condition error).Ends s post thrown := by
  unfold demand
  split
  · rename_i hcondition
    exact hpost hcondition
  · exact hthrown

theorem ends_demand_true {condition : Bool} {error : Raised} {post : Unit → State W → Prop}
    (hcondition : condition = true) : (demand condition error).Ends s post thrown ↔ post () s := by
  rw [demand, if_pos hcondition]
  exact ends_pure

theorem ends_checkProcess_same {post : Unit → State W → Prop} (hsame : s.pid = s.process) :
    checkProcess.Ends s post thrown ↔ post () s := by
  rw [checkProcess, ends_bind, ends_read]
  exact ends_demand_true (by simpa using hsame)

theorem ends_checkProcess {post : Unit → State W → Prop} (hthrown : ∀ error, thrown error s)
    (hpost : s.pid = s.process → post () s) : checkProcess.Ends s post thrown := by
  rw [checkProcess, ends_bind, ends_read]
  exact ends_demand (hthrown _) fun hsame => hpost (by simpa using hsame)

theorem ends_completion {c : TransferCompletion} {post : TransferCompletion → State W → Prop}
    (hget : s.completions h = some c) :
    (completion h).Ends s post thrown ↔ post c s := by
  unfold Ends completion
  rw [hget]

theorem ends_held {c : TransferCompletion} {owned : Owned} {post : Owned → State W → Prop}
    (howned : c.owned = some owned) : c.held.Ends s post thrown ↔ post owned s := by
  unfold TransferCompletion.held
  rw [howned]
  exact ends_pure

theorem ends_check {post : Unit → State W → Prop} (hthrown : ∀ error, thrown error s)
    (hpost : ∀ c, s.completions h = some c → c.closed = false → post () s) :
    (check h).Ends s post thrown := by
  rw [check, ends_bind]
  refine ends_checkProcess hthrown fun _ => ?_
  rw [ends_bind]
  cases hget : s.completions h with
  | none =>
      unfold Ends completion
      rw [hget]
      exact hthrown _
  | some c =>
      rw [ends_completion hget]
      exact ends_demand (hthrown _) fun hopen => hpost c hget (by simpa using hopen)

end

/-! ### Open completions -/

/-- The invariant, and a completion that holds its owners. -/
structure Ready (h : Nat) (owned : Owned) (s : State W) : Prop where
  sound : Sound s
  live : ∃ c, s.completions h = some c ∧ c.closed = false ∧ c.owned = some owned

section

variable {h : Nat} {owned : Owned} {s t : State W}

theorem Sound.ready {c : TransferCompletion} (hsound : Sound s)
    (hget : s.completions h = some c) (hopen : c.closed = false) :
    ∃ owned, c.owned = some owned ∧ Ready h owned s := by
  have howned := (hsound.completions h c hget).owned
  rw [hopen] at howned
  cases hsome : c.owned with
  | none => simp [hsome] at howned
  | some owned => exact ⟨owned, rfl, hsound, c, hget, hopen, hsome⟩

theorem Ready.frame (hready : Ready h owned s) (hframe : Frame s t) : Ready h owned t where
  sound := hready.sound.frame hframe
  live := by
    rw [hframe.completions]
    exact hready.live

theorem Ready.note {e : Event} (hready : Ready h owned s) (he : e.Neutral) :
    Ready h owned { s with log := e :: s.log } where
  sound := hready.sound.note he
  live := hready.live

/-- The producer is over, one way or the other, when the native wait comes back. -/
theorem nativeWait_spec (backend : Backend W) (native : Nat) (hready : Ready h owned s) :
    (nativeWait backend h native).Ends s
      (fun _ t => Ready h owned t ∧ Settled h t.log ∧ t.completions = s.completions)
      fun _ t => Ready h owned t ∧ Settled h t.log ∧ t.completions = s.completions := by
  have hworld : ∀ w, Ready h owned { s with world := w } :=
    fun w => hready.frame ⟨rfl, rfl, rfl, rfl, rfl, rfl⟩
  have hcompleted : Event.Neutral (.producerCompleted h) := fun _ h => h
  have hquarantined : Event.Neutral (.producerQuarantined h) := fun _ h => h
  rw [nativeWait, ends_bind]
  unfold Ends ask
  dsimp only
  cases (backend.wait native s.world).1 with
  | completed => exact ⟨(hworld _).note hcompleted, .inl (by simp), rfl⟩
  | drained error => exact ⟨(hworld _).note hcompleted, .inl (by simp), rfl⟩
  | quarantined error => exact ⟨(hworld _).note hquarantined, .inr (by simp), rfl⟩

/-- A stream that outputs may go to: it is a consumer, unless the end of use is recorded. -/
def Accounted (h stream : Nat) (s : State W) : Prop :=
  ∃ c, s.completions h = some c ∧
    (c.released = false → ∃ consumer ∈ c.consumers, consumer.handle = stream)

theorem quiet_each {ι : Type} {f : ι → Action W Unit} (hf : ∀ i, Quiet (f i)) (list : List ι) :
    Quiet (each f list) := by
  induction list with
  | nil => exact quiet_pure ()
  | cons i rest ih => exact (hf i).bind fun _ => ih

theorem recordConsumer_spec (backend : Backend W) (tensors : List Tensor) (stream : Stream)
    (hready : Ready h owned s) :
    (recordConsumer backend h tensors stream).Ends s
      (fun _ t => Ready h owned t ∧ Accounted h stream.handle t)
      fun _ t => Ready h owned t := by
  rw [recordConsumer, ends_bind]
  refine ((quiet_each (fun _ => quiet_ask _) _).ends s).mono (fun _ t ht => ?_)
    fun _ t ht => hready.frame ht
  have hready := hready.frame ht
  obtain ⟨c, hget, hopen, howned⟩ := hready.live
  have hget' : (t.modify h fun c =>
      { c with consumers := insertConsumer stream c.consumers }).completions h =
        some { c with consumers := insertConsumer stream c.consumers } := by
    rw [modify_completions, if_pos rfl, hget]
    rfl
  refine ⟨⟨?_, _, hget', hopen, howned⟩, _, hget', fun _ => insertConsumer_self _ _⟩
  refine hready.sound.account hget hopen rfl rfl rfl rfl fun stream' later hcovers => ?_
  rcases hcovers with ⟨hreleased, consumer, hconsumer, hhandle⟩ | hretired
  · obtain ⟨kept, hkept, hsame⟩ := insertConsumer_keeps hconsumer
    exact .inl ⟨hreleased, kept, hkept, hsame.trans hhandle⟩
  · exact .inr hretired

theorem handOut_spec {tensors : List Tensor} {stream : Stream} (hready : Ready h owned s)
    (haccounted : tensors.any Tensor.isCuda = true → Accounted h stream.handle s) :
    (handOut h tensors stream).Ends s (fun _ t => Ready h owned t) fun _ t => Ready h owned t := by
  unfold handOut
  split
  · rename_i hcuda
    obtain ⟨c, hget, hconsumer⟩ := haccounted hcuda
    obtain ⟨c', hget', hopen, howned⟩ := hready.live
    cases Option.some.inj (hget.symm.trans hget')
    exact ⟨hready.sound.handedOut hget hopen hconsumer, c, hget, hopen, howned⟩
  · exact hready

theorem Accounted.frame {stream : Nat} (haccounted : Accounted h stream s) (hframe : Frame s t) :
    Accounted h stream t := by
  unfold Accounted at haccounted ⊢
  rw [hframe.completions]
  exact haccounted

theorem recordCurrent_spec (backend : Backend W) {c : TransferCompletion} (current : Stream)
    (hready : Ready h owned s) (hget : s.completions h = some c) :
    (recordCurrent backend h c owned current).Ends s
      (fun _ t => Ready h owned t ∧
        (owned.tensors.any Tensor.isCuda = true → Accounted h current.handle t))
      fun _ t => Ready h owned t := by
  unfold recordCurrent
  split
  · rw [ends_bind]
    refine ((quiet_ask _).ends s).mono (fun _ t ht => ?_) fun _ t ht => hready.frame ht
    refine (recordConsumer_spec backend owned.tensors current (hready.frame ht)).mono
      (fun _ u hu => ⟨hu.1, fun _ => hu.2⟩) fun _ _ hu => hu
  · rename_i hskip
    refine ⟨hready, fun hcuda => ⟨c, hget, fun hreleased => ?_⟩⟩
    simp [hreleased, hcuda] at hskip

end

/-! ### The methods of a completion -/

variable (backend : Backend W)

theorem wait_keeps (h : Nat) (current : Stream) : Preserves Sound (wait backend h current) := by
  intro s hsound
  rw [wait, ends_bind]
  refine ends_checkProcess (fun _ => hsound) fun _ => ?_
  rw [ends_bind]
  refine ends_check (fun _ => hsound) fun c hget hopen => ?_
  obtain ⟨owned, howned, hready⟩ := hsound.ready hget hopen
  rw [ends_bind, ends_completion hget, ends_bind, ends_held howned, ends_bind]
  refine (nativeWait_spec backend owned.native hready).mono (fun _ t ht => ?_)
    fun _ t ht => ht.1.sound
  obtain ⟨hready, -, hcompletions⟩ := ht
  rw [ends_bind]
  refine (recordCurrent_spec backend current hready ((congrFun hcompletions h).trans hget)).mono
    (fun _ u hu => ?_) fun _ _ hu => hu.sound
  rw [ends_bind]
  refine ((quiet_ask _).ends u).mono (fun _ v hv => ?_) fun _ v hv => (hu.1.frame hv).sound
  rw [ends_bind]
  exact (handOut_spec (hu.1.frame hv) fun hcuda => (hu.2 hcuda).frame hv).mono
    (fun _ _ hw => hw.sound) fun _ _ hw => hw.sound

theorem waitStream_keeps (h : Nat) (argument : StreamArgument) (current : Stream) :
    Preserves Sound (waitStream backend h argument current) := by
  intro s hsound
  rw [waitStream, ends_bind]
  refine ends_checkProcess (fun _ => hsound) fun _ => ?_
  rw [ends_bind]
  refine ends_check (fun _ => hsound) fun c hget hopen => ?_
  obtain ⟨owned, howned, hready⟩ := hsound.ready hget hopen
  rw [ends_bind, ends_completion hget, ends_bind]
  refine ends_demand hsound fun _ => ?_
  rw [ends_bind]
  refine ((quiet_chosenStream backend argument current).ends s).mono (fun given t ht => ?_)
    fun _ _ ht => hsound.frame ht
  rw [ends_bind]
  refine ((quiet_checkStream given).ends t).mono (fun stream u hu => ?_)
    fun _ _ hu => hsound.frame (ht.trans hu)
  rw [ends_bind, ends_held howned, ends_bind]
  refine ((quiet_ask _).ends u).mono (fun _ v hv => ?_)
    fun _ _ hv => hsound.frame ((ht.trans hu).trans hv)
  rw [ends_bind]
  refine (recordConsumer_spec backend owned.tensors stream
    (hready.frame ((ht.trans hu).trans hv))).mono (fun _ w hw => ?_) fun _ _ hw => hw.sound
  rw [ends_bind]
  exact (handOut_spec hw.1 fun _ => hw.2).mono (fun _ _ hx => hx.sound) fun _ _ hx => hx.sound

theorem done_keeps (h : Nat) : Preserves Sound (done backend h) := by
  intro s hsound
  rw [done, ends_bind]
  refine ends_checkProcess (fun _ => hsound) fun _ => ?_
  rw [ends_bind]
  refine ends_check (fun _ => hsound) fun c hget hopen => ?_
  obtain ⟨owned, howned, -⟩ := hsound.ready hget hopen
  rw [ends_bind, ends_completion hget, ends_bind, ends_held howned]
  exact hsound.quiet (quiet_ask _)

/-! ### Releasing -/

section

variable {h : Nat} {owned : Owned} {s : State W} {c : TransferCompletion}

/-- Where `release` is once events are recorded on some of the consumers. -/
structure Releasing (h : Nat) (owned : Owned) (c : TransferCompletion) (old : List Event)
    (before : List Stream) (t : State W) : Prop where
  ready : Ready h owned t
  unreleased : ∃ d, t.completions h = some d ∧ d.released = false ∧ d.consumers = c.consumers ∧
    ∃ new, t.log = new ++ old ∧ (∀ stream, .handedOut h stream ∉ new) ∧
      ∀ consumer ∈ before, ∃ event ∈ d.retired, .recorded event consumer.handle ∈ new

theorem Releasing.frame {old : List Event} {before : List Stream} {t u : State W}
    (hat : Releasing h owned c old before t) (hframe : Frame t u) :
    Releasing h owned c old before u := by
  refine ⟨hat.ready.frame hframe, ?_⟩
  rw [hframe.completions, hframe.log]
  exact hat.unreleased

theorem retire_spec {old : List Event} {before : List Stream} (stream : Stream)
    (hat : Releasing h owned c old before s) :
    (retire backend h stream).Ends s
      (fun _ t => Releasing h owned c old (before ++ [stream]) t) fun _ t => Ready h owned t := by
  rw [retire, ends_bind]
  refine ((quiet_ask _).ends s).mono (fun _ t ht => ?_) fun _ _ ht => hat.ready.frame ht
  rw [ends_bind, ends_read, ends_bind, ends_update, ends_bind]
  have hnext : Releasing h owned c old before { t with events := t.events + 1 } :=
    (hat.frame ht).frame ⟨rfl, rfl, rfl, rfl, rfl, rfl⟩
  generalize ({ t with events := t.events + 1 } : State W) = t' at hnext ⊢
  generalize t.events = event
  refine ((quiet_ask _).ends t').mono (fun _ u hu => ?_) fun _ _ hu => hnext.ready.frame hu
  obtain ⟨hready, d, hget, hreleased, hconsumers, new, hlog, hnew, hbefore⟩ := hnext.frame hu
  have hnoted : Ready h owned { u with log := .recorded event stream.handle :: u.log } :=
    hready.note fun _ hconcerns => hconcerns
  obtain ⟨d', hget', hopen, howned⟩ := hready.live
  cases Option.some.inj (hget.symm.trans hget')
  rw [ends_bind]
  have hmodified : (({ u with log := .recorded event stream.handle :: u.log } : State W).modify h
      fun c => { c with retired := c.retired ++ [event] }).completions h =
        some { d with retired := d.retired ++ [event] } := by
    rw [modify_completions, if_pos rfl]
    show (u.completions h).map _ = _
    rw [hget]
    rfl
  refine ⟨⟨?_, _, hmodified, hopen, howned⟩, _, hmodified, hreleased, hconsumers,
    .recorded event stream.handle :: new, ?_, ?_, ?_⟩
  · refine hnoted.sound.account hget hopen rfl rfl rfl rfl fun stream' later hcovers => ?_
    rcases hcovers with hconsumer | ⟨htrue, event', hmem, hrecorded⟩
    · exact .inl hconsumer
    · exact .inr ⟨htrue, event', by simp [hmem], hrecorded⟩
  · simp [State.modify, hlog]
  · intro stream'
    simpa using hnew stream'
  · intro consumer hmem
    rcases List.mem_append.1 hmem with hmem | hmem
    · obtain ⟨event', hevent, hrecorded⟩ := hbefore consumer hmem
      exact ⟨event', by simp [hevent], by simp [hrecorded]⟩
    · rw [List.mem_singleton.1 hmem]
      exact ⟨event, by simp, by simp⟩

theorem release_spec (hready : Ready h owned s) :
    (release backend h).Ends s (fun _ t => Ready h owned t) fun _ t => Ready h owned t := by
  rw [release, ends_bind]
  refine ends_checkProcess (fun _ => hready) fun _ => ?_
  rw [ends_bind]
  refine ends_check (fun _ => hready) fun c hget hopen => ?_
  rw [ends_bind, ends_completion hget]
  split
  · exact hready
  · rename_i hreleased
    have hreleased : c.released = false := by simpa using hreleased
    rw [ends_bind]
    refine (ends_each (I := Releasing h owned c s.log)
      (fun before stream t hat => retire_spec backend stream hat) ?_).mono ?_ fun _ _ ht => ht
    · exact ⟨hready, c, hget, hreleased, rfl, [], rfl, by simp, by simp⟩
    · intro _ t hat
      obtain ⟨hready, d, hget, hreleased, hconsumers, new, hlog, hnew, hrecorded⟩ := hat
      obtain ⟨d', hget', hopen, howned⟩ := hready.live
      cases Option.some.inj (hget.symm.trans hget')
      rw [← hconsumers] at hrecorded
      refine ⟨hready.sound.useEnded hget hopen hreleased hlog hnew hrecorded, ?_⟩
      refine ⟨{ d with released := true }, ?_, hopen, howned⟩
      show (t.modify h _).completions h = _
      rw [modify_completions, if_pos rfl, hget]
      rfl

theorem release_keeps (h : Nat) : Preserves Sound (release backend h) := by
  intro s hsound
  cases hget : s.completions h with
  | some c =>
      cases hopen : c.closed with
      | false =>
          obtain ⟨owned, -, hready⟩ := hsound.ready hget hopen
          exact (release_spec backend hready).mono (fun _ _ ht => ht.sound) fun _ _ ht => ht.sound
      | true =>
          rw [release, ends_bind]
          refine ends_checkProcess (fun _ => hsound) fun _ => ?_
          rw [ends_bind]
          refine ends_check (fun _ => hsound) fun c' hget' hopen' => ?_
          cases Option.some.inj (hget.symm.trans hget')
          simp [hopen] at hopen'
  | none =>
      rw [release, ends_bind]
      refine ends_checkProcess (fun _ => hsound) fun _ => ?_
      rw [ends_bind]
      refine ends_check (fun _ => hsound) fun c' hget' _ => ?_
      simp [hget] at hget'

/-! ### Closing -/

/-- An open completion whose producer is over. -/
structure Finished (h : Nat) (owned : Owned) (s : State W) : Prop where
  ready : Ready h owned s
  settled : Settled h s.log

/-- The streams of all hand-outs that count have been synchronised since. -/
def Drained (h : Nat) (log : List Event) : Prop :=
  ∀ stream later earlier, log = later ++ .handedOut h stream :: earlier →
    BeforeRelease h earlier → Synchronized stream later

theorem waitAndRecord_spec (hready : Ready h owned s) :
    (waitAndRecord backend h owned).Ends s (fun _ t => Finished h owned t)
      fun _ t => Finished h owned t := by
  rw [waitAndRecord, ends_bind]
  refine (nativeWait_spec backend owned.native hready).mono (fun _ t ht => ?_)
    fun _ _ ht => ⟨ht.1, ht.2.1⟩
  obtain ⟨hready, hsettled, -⟩ := ht
  have hkept : ∀ u, Frame t u → Finished h owned u := fun u hu =>
    ⟨hready.frame hu, hu.log ▸ hsettled⟩
  rw [ends_bind]
  refine ((quiet_ask _).ends t).mono (fun _ u hu => ?_) fun _ u hu => hkept u hu
  exact hkept _ (hu.trans ⟨rfl, rfl, rfl, rfl, rfl, rfl⟩)

/-- Where waiting for the consumers is. -/
structure Draining {ι : Type} (entry : ι → Event) (h : Nat) (owned : Owned) (start : State W)
    (before : List ι) (t : State W) : Prop where
  finished : Finished h owned t
  completions : t.completions = start.completions
  log : ∃ new, t.log = new ++ start.log ∧ (∀ stream, .handedOut h stream ∉ new) ∧
    ∀ i ∈ before, entry i ∈ new

/-- One call that waits, and is noted when it returns. -/
theorem draining_step {ι : Type} {entry : ι → Event} {start : State W} {before : List ι}
    {callback : W → Exit Raised Unit × W} {i : ι} (hneutral : (entry i).Neutral)
    (hat : Draining entry h owned start before s) :
    Effect.Ends (do ask callback; note (entry i)) s
      (fun _ t => Draining entry h owned start (before ++ [i]) t)
      fun _ t => Finished h owned t := by
  have hkept : ∀ t, Frame s t → Finished h owned t := fun t ht =>
    ⟨hat.finished.ready.frame ht, ht.log ▸ hat.finished.settled⟩
  rw [ends_bind]
  refine ((quiet_ask _).ends s).mono (fun _ t ht => ?_) fun _ t ht => hkept t ht
  obtain ⟨new, hlog, hnew, hbefore⟩ := hat.log
  refine ⟨⟨(hkept t ht).ready.note hneutral, ?_⟩, ht.completions.trans hat.completions,
    entry i :: new, ?_, ?_, ?_⟩
  · rcases (hkept t ht).settled with hmem | hmem
    · exact .inl (by simp [hmem])
    · exact .inr (by simp [hmem])
  · show entry i :: t.log = entry i :: new ++ start.log
    rw [ht.log, hlog]
    rfl
  · intro stream hmem
    rcases List.mem_cons.1 hmem with heq | hmem
    · exact hneutral h (heq ▸ rfl)
    · exact hnew stream hmem
  · intro j hj
    rcases List.mem_append.1 hj with hj | hj
    · exact List.mem_cons_of_mem _ (hbefore j hj)
    · rw [List.mem_singleton.1 hj]
      exact List.mem_cons_self

theorem drainConsumers_spec (hfinished : Finished h owned s) :
    (drainConsumers backend h).Ends s (fun _ t => Finished h owned t ∧ Drained h t.log)
      fun _ t => Finished h owned t := by
  obtain ⟨c, hget, hopen, -⟩ := hfinished.ready.live
  have hcovered := (hfinished.ready.sound.completions h c hget).covered hopen
  rw [drainConsumers, ends_bind, ends_completion hget]
  split
  · rename_i hreleased
    refine (ends_each (I := Draining Event.eventSynchronized h owned s)
      (fun before event t hat => draining_step (fun _ hconcerns => hconcerns) hat)
      ⟨hfinished, rfl, [], rfl, by simp, by simp⟩).mono (fun _ t hat => ?_) fun _ _ ht => ht
    obtain ⟨new, hlog, hnew, hall⟩ := hat.log
    refine ⟨hat.finished, fun stream later earlier hsplit hbefore => ?_⟩
    obtain ⟨between, rfl, hold⟩ := split_after (hlog.symm.trans hsplit) (hnew stream)
    rcases hcovered stream between earlier hold hbefore with ⟨hfalse, -⟩ | ⟨-, event, hmem, hrec⟩
    · simp [hreleased] at hfalse
    · obtain ⟨newer, older, rfl⟩ := List.append_of_mem hrec
      exact .inr ⟨new ++ newer, older, event, by simp, by simp [hall event hmem]⟩
  · rename_i hreleased
    refine (ends_each
      (I := Draining (fun stream : Stream => Event.streamSynchronized stream.handle) h owned s)
      (fun before stream t hat => draining_step (fun _ hconcerns => hconcerns) hat)
      ⟨hfinished, rfl, [], rfl, by simp, by simp⟩).mono (fun _ t hat => ?_) fun _ _ ht => ht
    obtain ⟨new, hlog, hnew, hall⟩ := hat.log
    refine ⟨hat.finished, fun stream later earlier hsplit hbefore => ?_⟩
    obtain ⟨between, rfl, hold⟩ := split_after (hlog.symm.trans hsplit) (hnew stream)
    rcases hcovered stream between earlier hold hbefore with ⟨-, consumer, hmem, rfl⟩ | ⟨htrue, -⟩
    · exact .inl (by simp [hall consumer hmem])
    · exact absurd htrue hreleased

theorem drop_spec {c : TransferCompletion} (hsound : Sound s) (hget : s.completions h = some c)
    (hopen : c.closed = false) :
    (drop h).Ends s (fun _ t => t = s.dropped h c) fun _ _ => False := by
  have hheld : h ∈ s.held := (hsound.held h).2 ⟨c, hget, hopen⟩
  rw [drop, ends_bind, modifyCompletion, ends_update, ends_bind, note, ends_update, ends_bind,
    ends_read, ends_bind]
  refine (ends_demand_true (decide_eq_true hheld)).2 ?_
  rw [ends_bind]
  refine (ends_completion (c :=
    { c with closed := true, owned := none, consumers := [], retired := [] }) ?_).2 ?_
  · show (s.modify h _).completions h = _
    rw [modify_completions, if_pos rfl, hget]
    rfl
  · rfl

/-- What holds when `close` of an open completion comes back, one way or the other. -/
structure Closed (h : Nat) (s : State W) : Prop where
  sound : Sound s
  closed : ∃ c, s.completions h = some c ∧ c.closed = true

theorem drop_closes (hready : Ready h owned s) (hsafe : DropSafe BeforeRelease h s.log)
    (error : Option Raised) :
    Effect.Ends (do drop h; raiseFirst error) s (fun _ t => Closed h t) fun _ t => Closed h t := by
  obtain ⟨c, hget, hopen, -⟩ := hready.live
  rw [ends_bind]
  refine (drop_spec hready.sound hget hopen).mono (fun _ t ht => ?_) fun _ _ => False.elim
  have hclosed : Closed h t := by
    rw [ht]
    refine ⟨hready.sound.dropped hget hopen hsafe,
      { c with closed := true, owned := none, consumers := [], retired := [] }, ?_, rfl⟩
    exact (modify_completions s h h _).trans ((if_pos rfl).trans (congrArg _ hget))
  cases error <;> exact hclosed

/-- Whether the consumers are drained or quarantined, the outputs may go. -/
theorem quarantineUnknown_spec (hfinished : Finished h owned s) (drained : Option Raised)
    (hdrained : drained = none → Drained h s.log) :
    (quarantineUnknown h owned drained).Ends s
      (fun _ t => Ready h owned t ∧ DropSafe BeforeRelease h t.log) fun _ _ => False := by
  cases drained with
  | none => exact ⟨hfinished.ready, hfinished.settled, .inr (hdrained rfl)⟩
  | some error =>
      obtain ⟨c, hget, -, -⟩ := hfinished.ready.live
      rw [quarantineUnknown, ends_bind, ends_completion hget]
      have hneutral : Event.Neutral (.quarantined h) := fun _ hconcerns => hconcerns
      refine ⟨(hfinished.ready.note hneutral).frame ⟨rfl, rfl, rfl, rfl, rfl, rfl⟩, ?_, ?_⟩
      · rcases hfinished.settled with hmem | hmem
        · exact .inl (by simp [hmem])
        · exact .inr (by simp [hmem])
      · exact .inl (by simp)

/-- Whatever fails, `close` drops the outputs safely and gives the reservation back. -/
theorem close_spec (hready : Ready h owned s) (hsame : s.pid = s.process) :
    (close backend h).Ends s (fun _ t => Closed h t) fun _ t => Closed h t := by
  obtain ⟨c, hget, hopen, howned⟩ := hready.live
  rw [close, ends_bind, ends_checkProcess_same hsame, ends_bind, ends_completion hget,
    if_neg (by simp [hopen]), ends_bind, ends_attempt]
  have hdrop : ∀ (released waited drained : Option Raised) (t : State W), Finished h owned t →
      (drained = none → Drained h t.log) → Effect.Ends (do
        quarantineUnknown h owned drained
        drop h
        raiseFirst (released <|> waited <|> drained)) t
        (fun _ u => Closed h u) fun _ u => Closed h u := by
    intro released waited drained t hfinished hdrained
    rw [ends_bind]
    exact (quarantineUnknown_spec hfinished drained hdrained).mono
      (fun _ u hu => drop_closes hu.1 hu.2 _) fun _ _ => False.elim
  have hdrain : ∀ (released waited : Option Raised) (t : State W), Finished h owned t →
      Effect.Ends (do
      let drained ← attempt (drainConsumers backend h)
      quarantineUnknown h owned drained
      drop h
      raiseFirst (released <|> waited <|> drained)) t
      (fun _ u => Closed h u) fun _ u => Closed h u := by
    intro released waited t hfinished
    rw [ends_bind, ends_attempt]
    exact (drainConsumers_spec backend hfinished).mono
      (fun _ u hu => hdrop released waited none u hu.1 fun _ => hu.2)
      fun error u hu => hdrop released waited (some error) u hu nofun
  have hwait : ∀ (released : Option Raised) (t : State W), Ready h owned t → Effect.Ends (do
      let owned ← c.held
      let waited ← attempt (waitAndRecord backend h owned)
      let drained ← attempt (drainConsumers backend h)
      quarantineUnknown h owned drained
      drop h
      raiseFirst (released <|> waited <|> drained)) t
      (fun _ u => Closed h u) fun _ u => Closed h u := by
    intro released t hready
    rw [ends_bind, ends_held howned, ends_bind, ends_attempt]
    exact (waitAndRecord_spec backend hready).mono
      (fun _ u hu => hdrain released none u hu) fun error u hu => hdrain released (some error) u hu
  exact (release_spec backend hready).mono (fun _ t ht => hwait none t ht)
    fun error t ht => hwait (some error) t ht

theorem close_keeps (h : Nat) : Preserves Sound (close backend h) := by
  intro s hsound
  by_cases hsame : s.pid = s.process
  · cases hget : s.completions h with
    | some c =>
        cases hopen : c.closed with
        | false =>
            obtain ⟨owned, -, hready⟩ := hsound.ready hget hopen
            exact (close_spec backend hready hsame).mono (fun _ _ ht => ht.sound)
              fun _ _ ht => ht.sound
        | true =>
            rw [close, ends_bind, ends_checkProcess_same hsame, ends_bind, ends_completion hget,
              if_pos hopen]
            exact hsound
    | none =>
        rw [close, ends_bind, ends_checkProcess_same hsame, ends_bind]
        unfold Ends completion
        rw [hget]
        exact hsound
  · rw [close, ends_bind]
    exact ends_checkProcess (fun _ => hsound) fun heq => absurd heq hsame

end

/-! ### The methods of the queue -/

/-- Sizes and strides that `empty_strided` accepts make no negative number of bytes. -/
theorem Descriptor.bytes_nonneg {d : Descriptor}
    (hsizes : ∀ n ∈ d.shape ++ d.strides, 0 ≤ n) : 0 ≤ d.bytes := by
  unfold Descriptor.bytes
  refine Int.mul_nonneg ?_ (Int.natCast_nonneg _)
  split
  · exact Int.le_refl 0
  · rename_i hzero
    have hsum : 0 ≤ ((d.shape.zip d.strides).map fun p => (p.1 - 1) * p.2).sum := by
      refine List.sum_nonneg fun n hn => ?_
      obtain ⟨⟨size, stride⟩, hpair, rfl⟩ := List.mem_map.1 hn
      have hsize := hsizes size (List.mem_append_left _ (List.of_mem_zip hpair).1)
      have hstride := hsizes stride (List.mem_append_right _ (List.of_mem_zip hpair).2)
      have hpos : size ≠ 0 := fun heq => hzero (heq ▸ (List.of_mem_zip hpair).1)
      exact Int.mul_nonneg (by omega) hstride
    omega

theorem emptyStrided_spec (d : Descriptor) (s : State W) :
    (emptyStrided backend d).Ends s (fun _ t => Frame s t ∧ 0 ≤ d.bytes) fun _ t => Frame s t := by
  have hnonneg := backend.emptyStrided_nonneg d s.world
  rw [emptyStrided, ends_bind]
  unfold Ends ask
  split
  · rename_i hcall
    obtain ⟨hreturned, rfl⟩ := Prod.mk.inj hcall
    exact ⟨⟨rfl, rfl, rfl, rfl, rfl, rfl⟩, Descriptor.bytes_nonneg (hnonneg hreturned)⟩
  · rename_i hcall
    obtain ⟨-, rfl⟩ := Prod.mk.inj hcall
    exact ⟨rfl, rfl, rfl, rfl, rfl, rfl⟩

theorem allocateOutputs_spec (descriptors : List Descriptor) (s : State W) :
    (allocateOutputs backend descriptors).Ends s
      (fun _ t => Frame s t ∧ ∀ d ∈ descriptors, 0 ≤ d.bytes) fun _ t => Frame s t := by
  induction descriptors generalizing s with
  | nil => exact ⟨.refl s, by simp⟩
  | cons d rest ih =>
      rw [allocateOutputs, ends_bind]
      refine (emptyStrided_spec backend d s).mono (fun _ t ht => ?_) fun _ _ ht => ht
      rw [ends_bind]
      refine (ih t).mono (fun _ u hu => ⟨ht.1.trans hu.1, ?_⟩) fun _ _ hu => ht.1.trans hu
      intro e he
      rcases List.mem_cons.1 he with rfl | he
      · exact ht.2
      · exact hu.2 e he

theorem executeTransferGroup_spec (group : PreparedTransferGroup) (s : State W) :
    (executeTransferGroup backend group).Ends s
      (fun _ t => Frame s t ∧ 0 ≤ outputBytes group) fun _ t => Frame s t := by
  rw [executeTransferGroup, ends_bind]
  refine ((quiet_ask _).ends s).mono (fun _ t ht => ?_) fun _ _ ht => ht
  rw [ends_bind]
  refine (allocateOutputs_spec backend group.destinations t).mono (fun _ u hu => ?_)
    fun _ _ hu => ht.trans hu
  rw [ends_bind]
  refine ((quiet_ask _).ends u).mono (fun _ v hv => ?_) fun _ _ hv => (ht.trans hu.1).trans hv
  refine ⟨(ht.trans hu.1).trans hv, List.sum_nonneg fun n hn => ?_⟩
  obtain ⟨d, hd, rfl⟩ := List.mem_map.1 hn
  exact hu.2 d hd

theorem onQueueStream_spec {m : Action W α} {s : State W} {P : Prop}
    (hm : ∀ t, m.Ends t (fun _ u => Frame t u ∧ P) fun _ u => Frame t u) :
    (onQueueStream backend m).Ends s (fun _ t => Frame s t ∧ P) fun _ t => Frame s t := by
  rw [onQueueStream, ends_bind]
  refine ((quiet_ask _).ends s).mono (fun _ t ht => ?_) fun _ _ ht => ht
  rw [ends_bind, ends_handle]
  refine (hm t).mono (fun _ u hu => ?_) fun error u hu => ?_
  · rw [ends_bind]
    exact ((quiet_ask _).ends u).mono (fun _ _ hv => ⟨(ht.trans hu.1).trans hv, hu.2⟩)
      fun _ _ hv => (ht.trans hu.1).trans hv
  · rw [ends_bind]
    exact ((quiet_ask _).ends u).mono (fun _ _ hv => (ht.trans hu).trans hv)
      fun _ _ hv => (ht.trans hu).trans hv

theorem canSubmit_spec (group : PreparedTransferGroup) (s : State W) :
    (canSubmit group).Ends s
      (fun room t => t = s ∧ (room = true → s.held.length < s.limits.maxInFlight ∧
        s.bytes + outputBytes group ≤ s.limits.maxOutputBytes)) fun _ t => t = s := by
  rw [canSubmit, ends_bind]
  refine ends_checkProcess (fun _ => rfl) fun _ => ?_
  rw [ends_read]
  refine ⟨rfl, fun hroom => ?_⟩
  simp only [Bool.and_eq_true, decide_eq_true_eq] at hroom
  exact ⟨hroom.1.2, hroom.2⟩

theorem submit_keeps (argument : Option PreparedTransferGroup) (producer : StreamArgument)
    (current : Stream) : Preserves Sound (submit backend argument producer current) := by
  intro s hsound
  unfold submit
  rw [ends_bind]
  refine ends_checkProcess (fun _ => hsound) fun _ => ?_
  cases argument with
  | none => exact hsound
  | some group =>
      dsimp only
      rw [ends_bind, ends_read, ends_bind]
      refine ends_demand hsound fun _ => ?_
      rw [ends_bind, ends_read, ends_bind]
      refine ends_demand hsound fun _ => ?_
      rw [ends_bind]
      refine (canSubmit_spec group s).mono (fun room t ht => ?_) fun _ _ ht => ht ▸ hsound
      obtain ⟨rfl, hroom⟩ := ht
      rw [ends_bind]
      refine ends_demand hsound fun htrue => ?_
      obtain ⟨hcount, hbytes⟩ := hroom htrue
      rw [ends_bind]
      refine ((quiet_orderProducer backend group producer current).ends t).mono
        (fun _ u hu => ?_) fun _ _ hu => hsound.frame hu
      rw [ends_bind]
      refine (onQueueStream_spec backend (s := u)
        (executeTransferGroup_spec backend group)).mono (fun owned v hv => ?_)
        fun _ _ hv => hsound.frame (hu.trans hv)
      have hframe := hu.trans hv.1
      rw [ends_bind, ends_read, ends_bind, ends_update]
      refine (hsound.frame hframe).hold ?_ ?_ hv.2
      · rw [hframe.held, hframe.limits]
        exact hcount
      · rw [hframe.bytes, hframe.limits]
        exact hbytes

theorem closeEach_keeps (order : List Nat) (error : Option Raised) :
    Preserves Sound (closeEach backend order error) := by
  induction order generalizing error with
  | nil => exact preserves_pure
  | cons h rest ih => exact (close_keeps backend h).attempt.bind fun _ => ih _

theorem preserves_update {change : State W → State W} (hframe : ∀ s, Frame s (change s)) :
    Preserves Sound (update change : Action W Unit) :=
  fun s hsound => hsound.frame (hframe s)

theorem raiseFirst_keeps (error : Option Raised) :
    Preserves Sound (raiseFirst error : Action W Unit) := by
  cases error with
  | none => exact preserves_pure
  | some error => exact preserves_throw

theorem Quiet.keeps {m : Action W α} (hquiet : Quiet m) : Preserves Sound m :=
  fun _ hsound => hsound.quiet hquiet

theorem closeQueue_keeps (order : List Nat) : Preserves Sound (closeQueue backend order) := by
  have hstop : Preserves Sound (update fun s => { s with closed := true } : Action W Unit) :=
    preserves_update fun _ => ⟨rfl, rfl, rfl, rfl, rfl, rfl⟩
  refine quiet_checkProcess.keeps.bind fun _ => hstop.bind fun _ => ?_
  refine (closeEach_keeps backend order none).bind fun error => preserves_read.bind fun owns => ?_
  refine Preserves.bind ?_ fun failure => raiseFirst_keeps _
  refine Preserves.attempt ?_
  split
  · exact (quiet_ask _).keeps
  · exact preserves_pure

/-! ### Windows -/

theorem setWindow_keeps (i : Nat) (window : PrefetchWindow) :
    Preserves Sound (setWindow i window : Action W Unit) :=
  preserves_update fun _ => ⟨rfl, rfl, rfl, rfl, rfl, rfl⟩

theorem leaving_keeps (i : Nat) (window : PrefetchWindow) {m : Action W α}
    (hm : Preserves Sound m) : Preserves Sound (leaving i window m) :=
  hm.handle fun _ => (setWindow_keeps i _).bind fun _ => preserves_throw

theorem advance_keeps (i : Nat) (window : PrefetchWindow) (fetched : Fetched)
    (current : Stream) : Preserves Sound (advance backend i window fetched current) := by
  have hset : ∀ window, Preserves Sound (setWindow i window : Action W Unit) := setWindow_keeps i
  unfold advance
  split
  · split
    · exact preserves_throw
    · split
      · exact (release_keeps backend _).bind fun _ => hset _
      · exact hset _
  · split
    · exact hset _
    · exact hset _
    · exact leaving_keeps i window preserves_throw
  · exact (leaving_keeps i window (quiet_canSubmit _).keeps).bind fun _ => hset _
  · split
    · exact hset _
    · exact (leaving_keeps i _ (close_keeps backend _)).bind fun _ => hset _
  · exact (leaving_keeps i window (submit_keeps backend _ _ _)).bind fun _ => hset _
  · exact (leaving_keeps i window (waitStream_keeps backend _ _ _)).bind fun _ => hset _
  · exact (close_keeps backend _).attempt.bind fun _ => hset _
  · exact (hset _).bind fun _ => raiseFirst_keeps _

theorem closeWindow_keeps (i : Nat) (window : PrefetchWindow) :
    Preserves Sound (closeWindow i window : Action W Unit) := by
  unfold closeWindow
  split
  · exact preserves_pure
  · exact setWindow_keeps i _

/-! ### Every run -/

theorem operate_keeps {s t : State W} (operation : Operation) (hsound : Sound s)
    (hstep : s.operate backend operation = some t) : Sound t := by
  cases operation with
  | fork process =>
      cases hstep
      exact hsound.frame ⟨rfl, rfl, rfl, rfl, rfl, rfl⟩
  | submit group producer current =>
      cases hstep
      exact (submit_keeps backend group producer current).after hsound
  | done h =>
      cases hstep
      exact (done_keeps backend h).after hsound
  | wait h current =>
      cases hstep
      exact (wait_keeps backend h current).after hsound
  | waitStream h stream current =>
      cases hstep
      exact (waitStream_keeps backend h stream current).after hsound
  | release h =>
      cases hstep
      exact (release_keeps backend h).after hsound
  | close h =>
      cases hstep
      exact (close_keeps backend h).after hsound
  | canSubmit group =>
      cases hstep
      exact (quiet_canSubmit group).keeps.after hsound
  | closeQueue order =>
      simp only [State.operate] at hstep
      split at hstep
      · cases hstep
        exact (closeQueue_keeps backend order).after hsound
      · cases hstep
  | prefetch =>
      cases hstep
      exact hsound.frame ⟨rfl, rfl, rfl, rfl, rfl, rfl⟩
  | advance i fetched current =>
      simp only [State.operate, Option.map_eq_some_iff] at hstep
      obtain ⟨window, -, rfl⟩ := hstep
      exact (advance_keeps backend i window fetched current).after hsound
  | closeWindow i =>
      simp only [State.operate, Option.bind_eq_some_iff] at hstep
      obtain ⟨window, -, hstep⟩ := hstep
      split at hstep
      · cases hstep
        exact (closeWindow_keeps i window).after hsound
      · cases hstep

theorem reachable_sound {s : State W} (h : (system backend).Reachable s) : Sound s := by
  refine h.invariant (fun s hinit => ?_) fun s operation t hsound hstep =>
    operate_keeps backend operation hsound hstep
  obtain ⟨limits, device, ownsResources, pid, world, rfl⟩ := hinit
  exact .start limits device ownsResources pid world

/-- The counters of a queue are those of its open completions, and a completion that is not
    open has given its reservation back once. -/
structure Accounts (s : State W) : Prop where
  held : ∀ h, h ∈ s.held ↔ ∃ c, s.completions h = some c ∧ c.closed = false
  bytes : s.bytes = (s.held.map s.sizeOf).sum
  count_le : s.held.length ≤ s.limits.maxInFlight
  bytes_le : s.bytes ≤ s.limits.maxOutputBytes
  returned : ∀ h c, s.completions h = some c →
    s.log.count (.returned h) = if c.closed then 1 else 0
  dropped : ∀ h c, s.completions h = some c → (c.owned = none ↔ .dropped h ∈ s.log)

theorem Sound.toAccounts {s : State W} (hsound : Sound s) : Accounts s where
  held := hsound.held
  bytes := hsound.bytes
  count_le := hsound.count_le
  bytes_le := hsound.bytes_le
  returned := fun h c hget => (hsound.completions h c hget).returned
  dropped := by
    intro h c hget
    have hc := hsound.completions h c hget
    rw [hc.dropped, hc.owned, Option.isNone_iff_eq_none]

theorem closes {s : State W} (hsound : Sound s) {h : Nat} {c : TransferCompletion}
    (hget : s.completions h = some c) (hsame : s.pid = s.process) :
    Closed h (close backend h s).2 := by
  have hends : (close backend h).Ends s (fun _ t => Closed h t) fun _ t => Closed h t := by
    cases hopen : c.closed with
    | false =>
        obtain ⟨owned, -, hready⟩ := hsound.ready hget hopen
        exact close_spec backend hready hsame
    | true =>
        rw [close, ends_bind, ends_checkProcess_same hsame, ends_bind, ends_completion hget,
          if_pos hopen]
        exact ⟨hsound, c, hget, hopen⟩
  unfold Ends at hends
  split at hends <;> simp_all

/-- Over every run, with any call out of the file failing: the counters are right and within
    their bounds, each completion gives its reservation back once, whatever fails in its
    `close`, and outputs are dropped only once their producer is over and the streams of the
    hand-outs before `release` are synchronised, or the owners are in quarantine. -/
theorem queue_accounts {s : State W} (h : (system backend).Reachable s) :
    Accounts s ∧ DropsSafe BeforeRelease s.log ∧
      ∀ h c, s.completions h = some c → s.pid = s.process →
        Accounts (close backend h s).2 ∧
          ∃ d, (close backend h s).2.completions h = some d ∧ d.closed = true := by
  have hsound := reachable_sound backend h
  refine ⟨hsound.toAccounts, hsound.drops, fun h c hget hsame => ?_⟩
  have hclosed := closes backend hsound hget hsame
  exact ⟨hclosed.sound.toAccounts, hclosed.closed⟩

/-- A backend on which nothing fails that can be done. -/
def Backend.plain : Backend Unit where
  call
    | .emptyStrided d, w =>
        if ∀ n ∈ d.shape ++ d.strides, 0 ≤ n then (.returned (), w) else (.thrown (.failure 0), w)
    | _, w => (.returned (), w)
  submitDispatchGroup group w := (.returned group.identity, w)
  wait _ w := (.completed, w)
  query _ w := (.returned true, w)
  report _ w := (.returned ⟨1, [⟨1024, 512, 512, 512, "cpu_reference"⟩]⟩, w)
  emptyStrided_nonneg d w h := by
    dsimp only at h
    split at h
    · assumption
    · cases h

/-- One upload of 256 half-precision numbers. -/
def upload : PreparedTransferGroup :=
  ⟨0, 0, [⟨.h2d, ⟨[256], [1], 2, true⟩⟩]⟩

def emptyQueue : State Unit := .start ⟨2, 1024, by decide, by decide⟩ 0 true 1 ()

theorem emptyQueue_initial : (system Backend.plain).initial emptyQueue :=
  ⟨_, _, _, _, _, rfl⟩

def useAndClose : List Operation :=
  [.submit (some upload) .absent ⟨7, 0⟩, .waitStream 0 .absent ⟨7, 0⟩, .release 0, .close 0]

theorem queue_accounts_upload :
    ∃ s, (system Backend.plain).perform useAndClose emptyQueue = some s ∧
      s.submitted = 1 ∧ s.held = [] ∧ Accounts s ∧ DropsSafe BeforeRelease s.log := by
  have hrun : (system Backend.plain).perform useAndClose emptyQueue = some _ := rfl
  have haccounts := queue_accounts Backend.plain
    (System.reachable_of_perform emptyQueue_initial hrun)
  exact ⟨_, hrun, rfl, rfl, haccounts.1, haccounts.2.1⟩

/-- `wait` after `release` hands the outputs to a stream that `close` does not wait for. -/
theorem wait_after_release :
    ¬ ∀ s, (system Backend.plain).Reachable s → DropsSafe Always s.log := by
  intro hall
  have hrun : (system Backend.plain).perform
      [.submit (some upload) .absent ⟨3, 0⟩, .release 0, .wait 0 ⟨7, 0⟩, .close 0]
      emptyQueue = some _ := rfl
  have hdrops := hall _ (System.reachable_of_perform emptyQueue_initial hrun)
  obtain ⟨-, hquarantined | hsynchronized⟩ := hdrops [.returned 0] 0
    [.producerCompleted 0, .handedOut 0 7, .producerCompleted 0, .useEnded 0,
      .submitted 0 ⟨upload, 0, [⟨⟨[256], [1], 2, true⟩⟩], [⟨[256], [1], 2, true⟩]⟩] rfl
  · simp at hquarantined
  · rcases hsynchronized 7 [.producerCompleted 0] _ rfl trivial with hmem | hrecorded
    · simp at hmem
    · obtain ⟨newer, older, event, h, hmem⟩ := hrecorded
      have hsub : Event.eventSynchronized event ∈ [Event.producerCompleted 0] := by
        rw [h]
        exact List.mem_append_left _ hmem
      simp at hsub

end SymReloc.Asynchronous
