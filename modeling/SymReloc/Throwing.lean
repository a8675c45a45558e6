import Mathlib.Logic.Basic

/-!
# Computations that may throw

A computation over a state either returns a value or throws an error; the state survives
the error, so that a handler or a cleanup goes on with it.  `Ends` says what holds however
a computation ends, with one rule for each way to build one.
-/

namespace Throwing

variable {σ ε α β : Type}

/-- How a computation ended. -/
inductive Exit (ε α : Type) where
  | returned (value : α)
  | thrown (error : ε)
deriving DecidableEq, Repr

/-- A computation over a state. -/
def Effect (σ ε α : Type) : Type := σ → Exit ε α × σ

namespace Effect

protected def pure (value : α) : Effect σ ε α := fun s => (.returned value, s)

protected def bind (m : Effect σ ε α) (next : α → Effect σ ε β) : Effect σ ε β := fun s =>
  match m s with
  | (.returned a, t) => next a t
  | (.thrown error, t) => (.thrown error, t)

instance : Monad (Effect σ ε) where
  pure := Effect.pure
  bind := Effect.bind

def throw (error : ε) : Effect σ ε α := fun s => (.thrown error, s)

def read (value : σ → α) : Effect σ ε α := fun s => (.returned (value s), s)

def update (change : σ → σ) : Effect σ ε Unit := fun s => (.returned (), change s)

/-- An outcome that is known already. -/
def settle : Except ε α → Effect σ ε α
  | .ok value => pure value
  | .error error => throw error

/-- The handler goes on where the computation threw. -/
def handle (m : Effect σ ε α) (handler : ε → Effect σ ε α) : Effect σ ε α := fun s =>
  match m s with
  | (.returned a, t) => (.returned a, t)
  | (.thrown error, t) => handler error t

/-- The cleanup runs however the computation ends. -/
def ensuring (m : Effect σ ε α) (cleanup : σ → σ) : Effect σ ε α := fun s =>
  ((m s).1, cleanup (m s).2)

/-- The error, if there is one, becomes the value. -/
def attempt (m : Effect σ ε Unit) : Effect σ ε (Option ε) :=
  (m >>= fun _ => pure none).handle fun error => pure (some error)

/-- One computation after the other. -/
def each {ι : Type} (f : ι → Effect σ ε Unit) : List ι → Effect σ ε Unit
  | [] => pure ()
  | i :: rest => do
      f i
      each f rest

/-- What holds when a computation has returned, and what holds when it has thrown. -/
def Ends (m : Effect σ ε α) (s : σ) (post : α → σ → Prop) (thrown : ε → σ → Prop) : Prop :=
  match m s with
  | (.returned a, t) => post a t
  | (.thrown error, t) => thrown error t

/-! ### Rules -/

variable {m : Effect σ ε α} {s : σ} {post post' : α → σ → Prop} {thrown thrown' : ε → σ → Prop}

theorem Ends.mono (h : m.Ends s post thrown) (hpost : ∀ a t, post a t → post' a t)
    (hthrown : ∀ error t, thrown error t → thrown' error t) : m.Ends s post' thrown' := by
  unfold Ends at h ⊢
  split at h
  · exact hpost _ _ h
  · exact hthrown _ _ h

@[simp] theorem ends_pure {value : α} :
    (pure value : Effect σ ε α).Ends s post thrown ↔ post value s := Iff.rfl

@[simp] theorem ends_throw {error : ε} :
    (throw error : Effect σ ε α).Ends s post thrown ↔ thrown error s := Iff.rfl

@[simp] theorem ends_read {value : σ → α} :
    (read value : Effect σ ε α).Ends s post thrown ↔ post (value s) s := Iff.rfl

@[simp] theorem ends_update {change : σ → σ} {post : Unit → σ → Prop} :
    (update change : Effect σ ε Unit).Ends s post thrown ↔ post () (change s) := Iff.rfl

theorem ends_bind {next : α → Effect σ ε β} {post : β → σ → Prop} :
    (m >>= next).Ends s post thrown ↔ m.Ends s (fun a t => (next a).Ends t post thrown) thrown := by
  have hbind : (m >>= next) s = Effect.bind m next s := rfl
  unfold Ends
  rw [hbind, Effect.bind]
  cases hm : m s with
  | mk exit t => cases exit <;> rfl

theorem ends_handle {handler : ε → Effect σ ε α} : (m.handle handler).Ends s post thrown ↔
    m.Ends s post fun error t => (handler error).Ends t post thrown := by
  unfold Ends handle
  cases hm : m s with
  | mk exit t => cases exit <;> rfl

theorem ends_ensuring {cleanup : σ → σ} : (m.ensuring cleanup).Ends s post thrown ↔
    m.Ends s (fun a t => post a (cleanup t)) fun error t => thrown error (cleanup t) := by
  unfold Ends ensuring
  cases hm : m s with
  | mk exit t => cases exit <;> rfl

theorem ends_attempt {m : Effect σ ε Unit} {post : Option ε → σ → Prop} :
    m.attempt.Ends s post thrown ↔
      m.Ends s (fun _ t => post none t) fun error t => post (some error) t := by
  rw [attempt, ends_handle, ends_bind]
  rfl

/-- The loop rule: the invariant names the elements that are done. -/
theorem ends_each {ι : Type} {f : ι → Effect σ ε Unit} {list : List ι} {I : List ι → σ → Prop}
    (hstep : ∀ before i s, I before s → (f i).Ends s (fun _ t => I (before ++ [i]) t) thrown)
    (h : I [] s) : (each f list).Ends s (fun _ t => I list t) thrown := by
  have hfrom : ∀ (rest before : List ι) (s : σ), I before s →
      (each f rest).Ends s (fun _ t => I (before ++ rest) t) thrown := by
    intro rest
    induction rest with
    | nil =>
        intro before s h
        simpa [each] using h
    | cons i rest ih =>
        intro before s h
        rw [each, ends_bind]
        refine (hstep before i s h).mono (fun _ t ht => ?_) fun _ _ ht => ht
        simpa using ih (before ++ [i]) t ht
  exact hfrom list [] s h

/-! ### Preservation -/

/-- What holds before holds after, however the computation ends. -/
def Preserves (I : σ → Prop) (m : Effect σ ε α) : Prop :=
  ∀ s, I s → m.Ends s (fun _ t => I t) fun _ t => I t

variable {I : σ → Prop}

theorem preserves_pure {value : α} : Preserves I (pure value : Effect σ ε α) := fun _ h => h

theorem preserves_throw {error : ε} : Preserves I (throw error : Effect σ ε α) := fun _ h => h

theorem preserves_read {value : σ → α} : Preserves I (read value : Effect σ ε α) := fun _ h => h

theorem Preserves.bind {next : α → Effect σ ε β} (h : Preserves I m)
    (hnext : ∀ a, Preserves I (next a)) : Preserves I (m >>= next) := by
  intro s hs
  rw [ends_bind]
  exact (h s hs).mono (fun a t ht => hnext a t ht) fun _ _ ht => ht

theorem Preserves.handle {handler : ε → Effect σ ε α} (h : Preserves I m)
    (hhandler : ∀ error, Preserves I (handler error)) : Preserves I (m.handle handler) := by
  intro s hs
  rw [ends_handle]
  exact (h s hs).mono (fun _ _ ht => ht) fun error t ht => hhandler error t ht

theorem Preserves.attempt {m : Effect σ ε Unit} (h : Preserves I m) : Preserves I m.attempt := by
  intro s hs
  rw [ends_attempt]
  exact h s hs

theorem Preserves.after (h : Preserves I m) {s : σ} (hs : I s) : I (m s).2 := by
  have hends := h s hs
  unfold Ends at hends
  split at hends <;> simp_all

end Effect

end Throwing
