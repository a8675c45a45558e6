import SymReloc.Wire.DecodeIndexed
import SymReloc.Wire.ValidateTyped

/-!
# The wire formats are canonical

An accepted plan has one encoding: writing it gives back the bytes it was decoded from.
Nothing of an accepted buffer is ignored, normalised or cut short.
-/

namespace SymReloc

/-- Every accepted buffer is what the writer makes of the plan it is decoded to. -/
def Canonical {α : Type} (decode : List UInt8 → Outcome DecodeError α)
    (write : α → List UInt8) : Prop :=
  ∀ data plan, decode data = .ok plan → write plan = data

/-- Two accepted buffers that are decoded to one plan are one buffer. -/
def DecodesApart {α : Type} (decode : List UInt8 → Outcome DecodeError α) : Prop :=
  ∀ data data' plan, decode data = .ok plan → decode data' = .ok plan → data = data'

theorem Canonical.decodesApart {α : Type} {decode : List UInt8 → Outcome DecodeError α}
    {write : α → List UInt8} (h : Canonical decode write) : DecodesApart decode := by
  intro data data' plan hdata hdata'
  rw [← h data plan hdata, h data' plan hdata']

theorem canonical_decodePlan : Canonical decodePlan writePlan := by
  intro data plan h
  exact (decodePlan_eq_ok.mp h).2.symm

theorem canonical_decodeTypedPlan : Canonical decodeTypedPlan writeTypedPlan := by
  intro data plan h
  exact (decodeTypedPlan_eq_ok.mp h).2.symm

theorem canonical_decodeIndexedPlan : Canonical decodeIndexedPlan writeIndexedPlan := by
  intro data plan h
  exact (decodeIndexedPlan_eq_ok.mp h).2.symm

/-- The three wire formats are canonical. -/
theorem decoders_canonical :
    (Canonical decodePlan writePlan ∧ DecodesApart decodePlan) ∧
    (Canonical decodeTypedPlan writeTypedPlan ∧ DecodesApart decodeTypedPlan) ∧
    (Canonical decodeIndexedPlan writeIndexedPlan ∧ DecodesApart decodeIndexedPlan) :=
  ⟨⟨canonical_decodePlan, canonical_decodePlan.decodesApart⟩,
    ⟨canonical_decodeTypedPlan, canonical_decodeTypedPlan.decodesApart⟩,
    canonical_decodeIndexedPlan, canonical_decodeIndexedPlan.decodesApart⟩

end SymReloc
