import Mathlib.Data.List.Basic
import Mathlib.Tactic.Common

/-!
# Sequences of byte copies

A gather is a list of `memcpy`s from one memory to another.  Which source byte
ends up at which destination byte is a relation, `Moves`; where no destination
byte is given two sources, the relation alone fixes the result, whatever the
order, the number or the length of the copies.
-/

namespace SymReloc

/-- A memory, by offset from a base. -/
abbrev Memory (β : Type) := Int → β

/-- One `memcpy`, by offsets from the two bases. -/
structure ByteCopy where
  dst : Int
  src : Int
  bytes : Nat
deriving DecidableEq, Repr

variable {β : Type} {copies copies' : List ByteCopy} {source memory : Memory β} {d s : Int}

/-- The copy moves the source byte `s` to the destination byte `d`. -/
def ByteCopy.Moves (copy : ByteCopy) (d s : Int) : Prop :=
  ∃ j : Int, 0 ≤ j ∧ j < copy.bytes ∧ d = copy.dst + j ∧ s = copy.src + j

def Moves (copies : List ByteCopy) (d s : Int) : Prop := ∃ copy ∈ copies, copy.Moves d s

/-- No destination byte has two sources. -/
def Functional (moves : Int → Int → Prop) : Prop := ∀ d s s', moves d s → moves d s' → s = s'

def ByteCopy.run (source : Memory β) (memory : Memory β) (copy : ByteCopy) : Memory β := fun d =>
  if copy.dst ≤ d ∧ d < copy.dst + copy.bytes then source (copy.src + (d - copy.dst))
  else memory d

def runCopies (source : Memory β) (copies : List ByteCopy) (memory : Memory β) : Memory β :=
  copies.foldl (ByteCopy.run source) memory

@[simp] theorem moves_nil : ¬ Moves [] d s := by
  rintro ⟨copy, hmem, -⟩
  exact absurd hmem (List.not_mem_nil)

@[simp] theorem moves_cons {copy : ByteCopy} :
    Moves (copy :: copies) d s ↔ copy.Moves d s ∨ Moves copies d s := by
  simp [Moves]

@[simp] theorem moves_append :
    Moves (copies ++ copies') d s ↔ Moves copies d s ∨ Moves copies' d s := by
  simp only [Moves, List.mem_append, or_and_right, exists_or]

theorem moves_flatMap {ι : Type} {values : List ι} {body : ι → List ByteCopy} :
    Moves (values.flatMap body) d s ↔ ∃ value ∈ values, Moves (body value) d s := by
  simp only [Moves, List.mem_flatMap]
  constructor
  · rintro ⟨copy, ⟨value, hvalue, hcopy⟩, hmoves⟩
    exact ⟨value, hvalue, copy, hcopy, hmoves⟩
  · rintro ⟨value, hvalue, copy, hcopy, hmoves⟩
    exact ⟨copy, ⟨value, hvalue, hcopy⟩, hmoves⟩

theorem moves_map {ι : Type} {values : List ι} {body : ι → ByteCopy} :
    Moves (values.map body) d s ↔ ∃ value ∈ values, (body value).Moves d s := by
  simp [Moves]

theorem ByteCopy.run_of_moves {copy : ByteCopy} (h : copy.Moves d s) :
    copy.run source memory d = source s := by
  obtain ⟨j, hlo, hhi, rfl, rfl⟩ := h
  unfold ByteCopy.run
  rw [if_pos ⟨by omega, by omega⟩]
  congr 1
  omega

theorem ByteCopy.run_of_not_moves {copy : ByteCopy} (h : ∀ s, ¬ copy.Moves d s) :
    copy.run source memory d = memory d := by
  unfold ByteCopy.run
  apply if_neg
  intro hin
  exact h _ ⟨d - copy.dst, by omega, by omega, by omega, rfl⟩

/-- A byte no copy writes keeps its value. -/
theorem runCopies_of_not_moves (h : ∀ s, ¬ Moves copies d s) :
    runCopies source copies memory d = memory d := by
  induction copies generalizing memory with
  | nil => rfl
  | cons copy copies ih =>
      have hrest : ∀ s, ¬ Moves copies d s := fun s hs => h s (moves_cons.mpr (.inr hs))
      exact (ih hrest).trans (ByteCopy.run_of_not_moves fun s hs => h s (moves_cons.mpr (.inl hs)))

/-- A byte some copy writes has the value of its only source. -/
theorem runCopies_of_moves (hfun : Functional (Moves copies)) (h : Moves copies d s) :
    runCopies source copies memory d = source s := by
  induction copies generalizing memory with
  | nil => exact absurd h moves_nil
  | cons copy copies ih =>
      have hfun' : Functional (Moves copies) := fun d s s' hs hs' =>
        hfun d s s' (moves_cons.mpr (.inr hs)) (moves_cons.mpr (.inr hs'))
      by_cases hlater : Moves copies d s
      · exact ih hfun' hlater
      · -- a later copy of the byte would have the same source
        have hlast : ∀ s', ¬ Moves copies d s' := fun s' hs' =>
          hlater (hfun d s s' h (moves_cons.mpr (.inr hs')) ▸ hs')
        have hcopy : copy.Moves d s := (moves_cons.mp h).resolve_right hlater
        exact (runCopies_of_not_moves hlast).trans (ByteCopy.run_of_moves hcopy)

/-- A byte some copy writes, from a source that holds one value throughout. -/
theorem runCopies_const {value : β} (hsource : ∀ s, source s = value) (h : Moves copies d s) :
    runCopies source copies memory d = value := by
  induction copies generalizing memory s with
  | nil => exact absurd h moves_nil
  | cons copy copies ih =>
      by_cases hlater : ∃ s, Moves copies d s
      · obtain ⟨s', hs'⟩ := hlater
        exact ih hs'
      · have hlast : ∀ s', ¬ Moves copies d s' := fun s' hs' => hlater ⟨s', hs'⟩
        have hcopy : copy.Moves d s := (moves_cons.mp h).resolve_right (hlast s)
        exact (runCopies_of_not_moves hlast).trans
          ((ByteCopy.run_of_moves hcopy).trans (hsource s))

/-! ### Rebasing -/

/-- The same copy when the destination base moves forward. -/
def ByteCopy.rebase (base : Int) (copy : ByteCopy) : ByteCopy :=
  { copy with dst := copy.dst - base }

theorem moves_rebase {base : Int} :
    Moves (copies.map (ByteCopy.rebase base)) d s ↔ Moves copies (d + base) s := by
  induction copies with
  | nil => simp
  | cons copy copies ih =>
      rw [List.map_cons, moves_cons, moves_cons, ih]
      apply or_congr_left
      constructor
      · rintro ⟨j, hlo, hhi, hd, hs⟩
        exact ⟨j, hlo, hhi, by simp only [ByteCopy.rebase] at hd; omega, hs⟩
      · rintro ⟨j, hlo, hhi, hd, hs⟩
        exact ⟨j, hlo, hhi, by simp only [ByteCopy.rebase]; omega, hs⟩

end SymReloc
