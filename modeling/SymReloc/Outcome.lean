import Mathlib.Data.List.Forall2
import Mathlib.Logic.Basic
import Mathlib.Tactic.Common

/-!
# Runs that may fail or go wrong

A C++ function that reports errors by value has three kinds of run: it returns a
value, it reports an error, or it leaves the language's guarantees (it touches
memory outside an allocation, overflows a signed integer, and so on).  `Outcome`
keeps the three apart, so that "never goes wrong" is a statement about a run and
not a convention of the model.

`Outcome.Sat` is the partial-correctness reading: a run satisfies `Q` when it
does not go wrong and its value, if there is one, satisfies `Q`.
-/

namespace SymReloc

/-- The ways in which a run can leave the guarantees of the language.  An unsigned
    size that wraps is defined behaviour, but no code below wants it. -/
inductive Fault where
  | outOfBounds
  | overReserve
  | signedOverflow
  | sizeOverflow
deriving DecidableEq, Repr

/-- The result of a run: a value, a reported error, or a fault. -/
inductive Outcome (ε : Type) (α : Type) where
  | ok (value : α)
  | error (reason : ε)
  | fault (kind : Fault)
deriving DecidableEq, Repr

namespace Outcome

variable {ε α β γ : Type}

/-- Sequencing: the first error or fault ends the run. -/
def bind (run : Outcome ε α) (next : α → Outcome ε β) : Outcome ε β :=
  match run with
  | .ok value => next value
  | .error reason => .error reason
  | .fault kind => .fault kind

instance : Monad (Outcome ε) where
  pure := .ok
  bind := Outcome.bind

@[simp] theorem pure_eq (value : α) : (pure value : Outcome ε α) = .ok value := rfl

@[simp] theorem ok_bind (value : α) (next : α → Outcome ε β) :
    (Outcome.ok value >>= next) = next value := rfl

@[simp] theorem error_bind (reason : ε) (next : α → Outcome ε β) :
    (Outcome.error reason >>= next) = .error reason := rfl

@[simp] theorem fault_bind (kind : Fault) (next : α → Outcome ε β) :
    (Outcome.fault kind >>= next) = .fault kind := rfl

theorem bind_ok_iff {run : Outcome ε α} {next : α → Outcome ε β} {value : β} :
    (run >>= next) = .ok value ↔ ∃ middle, run = .ok middle ∧ next middle = .ok value := by
  cases run <;> simp

/-- A step without a value has one outcome to look at. -/
theorem exists_unit {post : Unit → Prop} : (∃ value, post value) ↔ post () :=
  ⟨fun ⟨(), h⟩ => h, fun h => ⟨(), h⟩⟩

theorem bind_assoc (run : Outcome ε α) (next : α → Outcome ε β) (last : β → Outcome ε γ) :
    ((run >>= next) >>= last) = (run >>= fun value => next value >>= last) := by
  cases run <;> rfl

/-- A run that does not go wrong and whose value, if any, satisfies `post`. -/
def Sat (run : Outcome ε α) (post : α → Prop) : Prop :=
  match run with
  | .ok value => post value
  | .error _ => True
  | .fault _ => False

@[simp] theorem sat_ok (value : α) (post : α → Prop) :
    Sat (.ok value : Outcome ε α) post ↔ post value := Iff.rfl

@[simp] theorem sat_error (reason : ε) (post : α → Prop) :
    Sat (.error reason : Outcome ε α) post := trivial

@[simp] theorem not_sat_fault (kind : Fault) (post : α → Prop) :
    ¬ Sat (.fault kind : Outcome ε α) post := id

theorem sat_bind {run : Outcome ε α} {next : α → Outcome ε β} {post : β → Prop} :
    Sat (run >>= next) post ↔ Sat run (fun value => Sat (next value) post) := by
  cases run <;> simp

theorem Sat.mono {run : Outcome ε α} {post post' : α → Prop}
    (h : Sat run post) (himp : ∀ value, post value → post' value) : Sat run post' := by
  cases run with
  | ok value => exact himp value h
  | error reason => trivial
  | fault kind => exact h.elim

theorem Sat.of_ok {run : Outcome ε α} {post : α → Prop} {value : α}
    (h : Sat run post) (hrun : run = .ok value) : post value := by
  subst hrun; exact h

theorem sat_ite {c : Prop} [Decidable c] {left right : Outcome ε α} {post : α → Prop}
    (hleft : c → Sat left post) (hright : ¬ c → Sat right post) :
    Sat (if c then left else right) post := by
  split
  · exact hleft ‹_›
  · exact hright ‹_›

/-- A run is safe when it does not go wrong. -/
def Safe (run : Outcome ε α) : Prop := Sat run fun _ => True

theorem safe_ok (value : α) : Safe (.ok value : Outcome ε α) := trivial

theorem safe_error (reason : ε) : Safe (.error reason : Outcome ε α) := trivial

theorem Sat.safe {run : Outcome ε α} {post : α → Prop} (h : Sat run post) : Safe run :=
  h.mono fun _ _ => trivial

theorem Safe.sat_of_ok {run : Outcome ε α} {post : α → Prop} (h : Safe run)
    (hpost : ∀ value, run = .ok value → post value) : Sat run post := by
  cases run with
  | ok value => exact hpost value rfl
  | error reason => trivial
  | fault kind => exact h

theorem safe_bind {run : Outcome ε α} {next : α → Outcome ε β} (hrun : Safe run)
    (hnext : ∀ value, Safe (next value)) : Safe (run >>= next) :=
  sat_bind.mpr (hrun.mono fun value _ => hnext value)

theorem safe_iff {run : Outcome ε α} : Safe run ↔ ∀ kind, run ≠ .fault kind := by
  cases run <;> simp [Safe]

/-! ### Checks, vector accesses and loops -/

/-- Report an error unless a condition holds. -/
def require (c : Prop) [Decidable c] (reason : ε) : Outcome ε Unit :=
  if c then .ok () else .error reason

@[simp] theorem require_eq_ok {c : Prop} [Decidable c] {reason : ε} :
    require c reason = .ok () ↔ c := by
  unfold require
  split <;> simp [*]

theorem sat_require_bind {c : Prop} [Decidable c] {reason : ε} {next : Unit → Outcome ε α}
    {post : α → Prop} : Sat (require c reason >>= next) post ↔ (c → Sat (next ()) post) := by
  unfold require
  split <;> simp [*]

theorem sat_require {c : Prop} [Decidable c] {reason : ε} {post : Unit → Prop}
    (h : c → post ()) : Sat (require c reason) post := by
  unfold require
  split
  · exact h ‹_›
  · trivial

theorem safe_require (c : Prop) [Decidable c] (reason : ε) : Safe (require c reason) :=
  sat_require fun _ => trivial

/-- `values[index]` of a vector, without a bounds check. -/
def fetch (values : List α) (index : Nat) : Outcome ε α :=
  match values[index]? with
  | some value => .ok value
  | none => .fault .outOfBounds

@[simp] theorem fetch_eq_ok {values : List α} {index : Nat} {value : α} :
    (fetch values index : Outcome ε α) = .ok value ↔ values[index]? = some value := by
  unfold fetch
  split <;> simp [*]

theorem fetch_of_lt {values : List α} {index : Nat} (h : index < values.length) :
    (fetch values index : Outcome ε α) = .ok values[index] := by
  rw [fetch_eq_ok, List.getElem?_eq_getElem h]

/-- Run a check on every element, in order. -/
def forEach (values : List α) (body : α → Outcome ε Unit) : Outcome ε Unit :=
  match values with
  | [] => .ok ()
  | value :: rest => do
      body value
      forEach rest body

@[simp] theorem forEach_eq_ok {values : List α} {body : α → Outcome ε Unit} :
    forEach values body = .ok () ↔ ∀ value ∈ values, body value = .ok () := by
  induction values with
  | nil => simp [forEach]
  | cons value rest ih =>
      rw [forEach, bind_ok_iff, exists_unit, List.forall_mem_cons, ih]

theorem safe_forEach {values : List α} {body : α → Outcome ε Unit}
    (h : ∀ value ∈ values, Safe (body value)) : Safe (forEach values body) := by
  induction values with
  | nil => exact safe_ok ()
  | cons value rest ih =>
      refine sat_bind.mpr ((h value (by simp)).mono fun _ _ => ?_)
      exact ih fun x hx => h x (by simp [hx])

/-- Give the error of a run a context. -/
def mapError {ε' : Type} (context : ε → ε') : Outcome ε α → Outcome ε' α
  | .ok value => .ok value
  | .error reason => .error (context reason)
  | .fault kind => .fault kind

/-! ### Runs with a promise on errors -/

/-- A run that does not go wrong, whose value satisfies `post` and whose error
    satisfies `good`. -/
def Ensures (run : Outcome ε α) (good : ε → Prop) (post : α → Prop) : Prop :=
  match run with
  | .ok value => post value
  | .error reason => good reason
  | .fault _ => False

section Ensures

variable {good : ε → Prop} {post : α → Prop}

@[simp] theorem ensures_ok {value : α} : Ensures (.ok value) good post ↔ post value := Iff.rfl

@[simp] theorem ensures_error {reason : ε} :
    Ensures (.error reason : Outcome ε α) good post ↔ good reason := Iff.rfl

theorem Ensures.mono {run : Outcome ε α} {post' : α → Prop} (h : Ensures run good post)
    (himp : ∀ value, post value → post' value) : Ensures run good post' := by
  cases run with
  | ok value => exact himp value h
  | error reason => exact h
  | fault kind => exact h

theorem Ensures.bind {run : Outcome ε α} {next : α → Outcome ε β} {post' : β → Prop}
    (h : Ensures run good post) (hnext : ∀ value, post value → Ensures (next value) good post') :
    Ensures (run >>= next) good post' := by
  cases run with
  | ok value => exact hnext value h
  | error reason => exact h
  | fault kind => exact h.elim

/-- `Ensures.bind` when nothing is kept of the first result. -/
theorem Ensures.andThen {run : Outcome ε α} {next : α → Outcome ε β} {post' : β → Prop}
    (h : Ensures run good fun _ => True) (hnext : ∀ value, Ensures (next value) good post') :
    Ensures (run >>= next) good post' :=
  h.bind fun value _ => hnext value

theorem ensures_require {c : Prop} [Decidable c] {reason : ε} (h : good reason) :
    Ensures (require c reason) good fun _ => c := by
  unfold require
  split
  · assumption
  · exact h

theorem ensures_fetch {values : List α} {index : Nat} (h : index < values.length) :
    Ensures (fetch values index) good fun value => value ∈ values := by
  rw [fetch_of_lt h]
  exact List.getElem_mem h

theorem ensures_forEach {values : List α} {body : α → Outcome ε Unit}
    (h : ∀ value ∈ values, Ensures (body value) good fun _ => True) :
    Ensures (forEach values body) good fun _ => True := by
  induction values with
  | nil => trivial
  | cons value rest ih =>
      exact (h value (by simp)).bind fun _ _ => ih fun x hx => h x (by simp [hx])

theorem ensures_ite {c : Prop} [Decidable c] {left right : Outcome ε α}
    (hleft : c → Ensures left good post) (hright : ¬ c → Ensures right good post) :
    Ensures (if c then left else right) good post := by
  split
  · exact hleft ‹_›
  · exact hright ‹_›

theorem Ensures.not_fault {run : Outcome ε α} (h : Ensures run good post) (kind : Fault) :
    run ≠ .fault kind := by
  intro hrun
  subst hrun
  exact h

end Ensures

@[simp] theorem mapError_eq_ok {ε' : Type} {context : ε → ε'} {run : Outcome ε α} {value : α} :
    run.mapError context = .ok value ↔ run = .ok value := by
  cases run <;> simp [mapError]

theorem sat_mapError {ε' : Type} {context : ε → ε'} {run : Outcome ε α} {post : α → Prop} :
    Sat (run.mapError context) post ↔ Sat run post := by
  cases run <;> simp [mapError]

theorem safe_mapError {ε' : Type} {context : ε → ε'} {run : Outcome ε α} :
    Safe (run.mapError context) ↔ Safe run := sat_mapError

theorem Ensures.mapError {ε' : Type} {context : ε → ε'} {run : Outcome ε α} {good : ε → Prop}
    {good' : ε' → Prop} {post : α → Prop} (h : Ensures run good post)
    (himp : ∀ reason, good reason → good' (context reason)) :
    Ensures (run.mapError context) good' post := by
  cases run with
  | ok value => exact h
  | error reason => exact himp reason h
  | fault kind => exact h

/-- Run a step for every element, in order, and collect the values. -/
def mapEach (values : List α) (body : α → Outcome ε β) : Outcome ε (List β) :=
  match values with
  | [] => .ok []
  | value :: rest => do
      let result ← body value
      let results ← mapEach rest body
      pure (result :: results)

theorem mapEach_eq_ok {values : List α} {body : α → Outcome ε β} {results : List β} :
    mapEach values body = .ok results ↔
      List.Forall₂ (fun value result => body value = .ok result) values results := by
  induction values generalizing results with
  | nil =>
      rw [mapEach, Outcome.ok.injEq, List.forall₂_nil_left_iff]
      exact eq_comm
  | cons value rest ih =>
      simp only [mapEach, bind_ok_iff, ih, pure_eq, Outcome.ok.injEq, List.forall₂_cons_left_iff]
      constructor
      · rintro ⟨result, hresult, results, hresults, rfl⟩
        exact ⟨result, results, hresult, hresults, rfl⟩
      · rintro ⟨result, results, hresult, hresults, rfl⟩
        exact ⟨result, hresult, results, hresults, rfl⟩

/-- The results are those of the values. -/
theorem mem_mapEach {values : List α} {body : α → Outcome ε β} {results : List β}
    (h : mapEach values body = .ok results) {result : β} :
    result ∈ results ↔ ∃ value ∈ values, body value = .ok result := by
  rw [mapEach_eq_ok] at h
  induction h with
  | nil => simp
  | cons hhead _ ih =>
      rw [List.mem_cons, ih]
      simp [hhead, eq_comm]

/-- The results of a loop whose body computes `f` when it returns. -/
theorem eq_map_of_mapEach {values : List α} {body : α → Outcome ε β} {results : List β}
    {f : α → β} (hrun : mapEach values body = .ok results)
    (hbody : ∀ value ∈ values, ∀ result, body value = .ok result → result = f value) :
    results = values.map f := by
  rw [mapEach_eq_ok] at hrun
  induction hrun with
  | nil => rfl
  | cons hhead _ ih =>
      rw [List.map_cons, hbody _ (by simp) _ hhead, ih fun x hx => hbody x (by simp [hx])]

theorem exists_mapEach {values : List α} {body : α → Outcome ε β}
    (h : ∀ value ∈ values, ∃ result, body value = .ok result) :
    ∃ results, mapEach values body = .ok results := by
  induction values with
  | nil => exact ⟨[], rfl⟩
  | cons value rest ih =>
      obtain ⟨result, hresult⟩ := h value (by simp)
      obtain ⟨results, hresults⟩ := ih fun x hx => h x (by simp [hx])
      exact ⟨result :: results, by simp [mapEach, hresult, hresults]⟩

/-- A body that always has a value is a function. -/
theorem mapEach_eq_map {values : List α} {body : α → Outcome ε β} {f : α → β}
    (h : ∀ value ∈ values, body value = .ok (f value)) :
    mapEach values body = .ok (values.map f) := by
  induction values with
  | nil => rfl
  | cons value rest ih =>
      rw [List.forall_mem_cons] at h
      rw [mapEach, h.1, ok_bind, ih h.2]
      rfl

theorem exists_of_mapEach {values : List α} {body : α → Outcome ε β} {results : List β}
    (hrun : mapEach values body = .ok results) {value : α} (hmem : value ∈ values) :
    ∃ result, body value = .ok result := by
  rw [mapEach_eq_ok] at hrun
  obtain ⟨k, hk, rfl⟩ := List.getElem_of_mem hmem
  exact ⟨_, hrun.get hk (hrun.length_eq ▸ hk)⟩

theorem ensures_mapEach {values : List α} {body : α → Outcome ε β} {good : ε → Prop}
    {post : β → Prop} (h : ∀ value ∈ values, Ensures (body value) good post) :
    Ensures (mapEach values body) good fun results =>
      results.length = values.length ∧ ∀ result ∈ results, post result := by
  induction values with
  | nil => exact ⟨rfl, by simp⟩
  | cons value rest ih =>
      refine (h value (by simp)).bind fun result hresult =>
        (ih fun x hx => h x (by simp [hx])).bind fun results hresults => ?_
      exact ⟨congrArg (· + 1) hresults.1, List.forall_mem_cons.mpr ⟨hresult, hresults.2⟩⟩

theorem ensures_length_mapEach {values : List α} {body : α → Outcome ε β} {good : ε → Prop}
    (h : ∀ value ∈ values, Ensures (body value) good fun _ => True) :
    Ensures (mapEach values body) good fun results => results.length = values.length :=
  (ensures_mapEach h).mono fun _ hresults => hresults.1

end Outcome

end SymReloc
