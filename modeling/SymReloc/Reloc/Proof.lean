import SymReloc.Sym.Simplify

/-!
# Verification proofs

`proveEqual` and `proveLessEqual` decide a relation between two symbolic
expressions as proven, disproven or unknown; the verifiers reject only what is
disproven.  `proveEqual_proven` and its companions say what the verdicts mean.
-/

namespace SymReloc

inductive Proof where
  | proven
  | disproven
  | unknown
deriving DecidableEq, Repr

open SymExpr

/-- `proveEqual`. -/
def proveEqual (lhs rhs : SymExpr) : Proof :=
  if areLogicallyEqual lhs rhs then .proven
  else
    match lhs, rhs with
    | .constant l, .constant r => if l = r then .proven else .disproven
    | _, _ => .unknown

/-- `proveLessEqual`. -/
def proveLessEqual (lhs rhs : SymExpr) : Proof :=
  match lhs, rhs with
  | .constant l, .constant r => if l ≤ r then .proven else .disproven
  | _, _ => if areLogicallyEqual lhs rhs then .proven else .unknown

/-- `canonicalRowMajorStrides`: the running products from the innermost extent. -/
def canonicalRowMajorStrides (w : Int → Int) (extents : List SymExpr) : List SymExpr :=
  (extents.foldr
    (fun extent result => (result.2 :: result.1, getSimplifiedBinaryExpr w .mul result.2 extent))
    ([], .constant 1)).1

theorem length_canonicalRowMajorStrides (w : Int → Int) (extents : List SymExpr) :
    (canonicalRowMajorStrides w extents).length = extents.length := by
  induction extents with
  | nil => rfl
  | cons extent extents ih =>
      simp only [canonicalRowMajorStrides, List.foldr_cons, List.length_cons] at ih ⊢
      rw [ih]

theorem proveEqual_proven {lhs rhs : SymExpr} (h : proveEqual lhs rhs = .proven) (σ : Name → Int) :
    lhs.eval σ = rhs.eval σ := by
  unfold proveEqual at h
  split at h
  · exact areLogicallyEqual_eval σ ‹_›
  · split at h
    · split at h
      · rename_i heq
        rw [heq]
      · cases h
    · cases h

theorem proveEqual_disproven {lhs rhs : SymExpr} (h : proveEqual lhs rhs = .disproven) :
    ∃ l r, lhs = .constant l ∧ rhs = .constant r ∧ l ≠ r := by
  unfold proveEqual at h
  split at h
  · cases h
  · split at h
    · rename_i l r _
      split at h
      · cases h
      · exact ⟨l, r, rfl, rfl, ‹_›⟩
    · cases h

theorem proveLessEqual_disproven {lhs rhs : SymExpr} (h : proveLessEqual lhs rhs = .disproven) :
    ∃ l r, lhs = .constant l ∧ rhs = .constant r ∧ r < l := by
  unfold proveLessEqual at h
  split at h
  · rename_i l r
    split at h
    · cases h
    · exact ⟨l, r, rfl, rfl, by omega⟩
  · split at h <;> cases h

end SymReloc
