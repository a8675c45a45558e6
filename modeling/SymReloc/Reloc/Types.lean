import Mathlib.Tactic.Common
import Mathlib.Data.List.Basic
import Mathlib.Data.List.Nodup

/-!
# Element types, typed constants and affine maps

What the plan attributes take from the compiler framework: element types, typed
scalar constants (kept as bit patterns of exactly their type's width) and affine
maps (whose dimension and symbol positions are in range by construction).
-/

namespace SymReloc

/-! ### Element types -/

/-- Floating-point formats; the formats the dialects never name stay opaque. -/
inductive FloatKind where
  | f16
  | bf16
  | f32
  | f64
  | other (mnemonic : List UInt8) (bits : Nat)
deriving DecidableEq, Repr

def FloatKind.width : FloatKind → Nat
  | .f16 => 16
  | .bf16 => 16
  | .f32 => 32
  | .f64 => 64
  | .other _ bits => bits

inductive IntegerSignedness where
  | signless
  | signed
  | unsigned
deriving DecidableEq, Repr

/-- A type that can stand as an element type, or any other type. -/
inductive MlirType where
  | float (kind : FloatKind)
  | integer (signedness : IntegerSignedness) (width : Nat)
  | index
  | complex (element : MlirType)
  | other (mnemonic : List UInt8)
deriving DecidableEq, Repr

namespace MlirType

abbrev f16 : MlirType := .float .f16
abbrev f32 : MlirType := .float .f32
abbrev signless (width : Nat) : MlirType := .integer .signless width

/-- `isIntOrIndexOrFloat() || isa<ComplexType>`. -/
def IsTensorElement : MlirType → Prop
  | .float _ | .integer .. | .index | .complex _ => True
  | .other _ => False

instance : DecidablePred IsTensorElement := fun type => by
  cases type <;> unfold IsTensorElement <;> infer_instance

theorem isTensorElement_f32 : IsTensorElement f32 := trivial

end MlirType

/-! ### Typed constants -/

/-- `TypedAttr`: a float or integer constant as its bits, or any other typed
    attribute. -/
inductive TypedAttr where
  | float (kind : FloatKind) (bits : BitVec kind.width)
  | integer (signedness : IntegerSignedness) (width : Nat) (bits : BitVec width)
  | index (bits : BitVec 64)
  | other (type : MlirType) (mnemonic : List UInt8)
deriving DecidableEq, Repr

def TypedAttr.type : TypedAttr → MlirType
  | .float kind _ => .float kind
  | .integer signedness width _ => .integer signedness width
  | .index _ => .index
  | .other type _ => type

/-! ### Affine maps -/

inductive AffineExprKind where
  | add
  | mul
  | mod
  | floorDiv
  | ceilDiv
deriving DecidableEq, Repr

inductive AffineExpr where
  | dim (position : Nat)
  | symbol (position : Nat)
  | constant (value : Int)
  | binary (kind : AffineExprKind) (lhs rhs : AffineExpr)
deriving DecidableEq, Repr

namespace AffineExpr

/-- Every dimension and symbol position is in range. -/
def InRange (numDims numSymbols : Nat) : AffineExpr → Prop
  | .dim position => position < numDims
  | .symbol position => position < numSymbols
  | .constant _ => True
  | .binary _ lhs rhs => lhs.InRange numDims numSymbols ∧ rhs.InRange numDims numSymbols

instance decidableInRange (numDims numSymbols : Nat) :
    ∀ expr : AffineExpr, Decidable (expr.InRange numDims numSymbols)
  | .dim _ => inferInstanceAs (Decidable (_ < _))
  | .symbol _ => inferInstanceAs (Decidable (_ < _))
  | .constant _ => inferInstanceAs (Decidable True)
  | .binary _ lhs rhs =>
      have := decidableInRange numDims numSymbols lhs
      have := decidableInRange numDims numSymbols rhs
      inferInstanceAs (Decidable (_ ∧ _))

/-- Evaluate under a meaning of the operators that may refuse its operands. -/
def evalWith (sem : AffineExprKind → Int → Int → Option Int) (dims symbols : Nat → Int) :
    AffineExpr → Option Int
  | .dim position => some (dims position)
  | .symbol position => some (symbols position)
  | .constant value => some value
  | .binary kind lhs rhs =>
      (lhs.evalWith sem dims symbols).bind fun l =>
        (rhs.evalWith sem dims symbols).bind fun r => sem kind l r

end AffineExpr

structure AffineMap where
  numDims : Nat
  numSymbols : Nat
  results : List AffineExpr
  inRange : ∀ result ∈ results, result.InRange numDims numSymbols

instance : DecidableEq AffineMap := fun a b =>
  decidable_of_iff (a.numDims = b.numDims ∧ a.numSymbols = b.numSymbols ∧ a.results = b.results) (by
    cases a; cases b
    simp)

/-- `AffineMap::getMultiDimIdentityMap`. -/
def AffineMap.identity (dims : Nat) : AffineMap where
  numDims := dims
  numSymbols := 0
  results := (List.range dims).map .dim
  inRange := by
    intro result hresult
    obtain ⟨position, hposition, rfl⟩ := List.mem_map.1 hresult
    exact List.mem_range.1 hposition

/-- The dimensions a list of results projects on, when each is a plain dimension. -/
def plainDims : List AffineExpr → Option (List Nat)
  | [] => some []
  | .dim position :: rest => (plainDims rest).map (position :: ·)
  | _ :: _ => none

/-- `AffineMap::isPermutation`: square, without symbols, every result a distinct
    dimension. -/
def AffineMap.isPermutation (map : AffineMap) : Bool :=
  map.numDims == map.results.length && map.numSymbols == 0 &&
    match plainDims map.results with
    | some dims => decide dims.Nodup
    | none => false

/-- The results of `inversePermutation(getPermutationMap(perm))`: the dimension
    that reads position `p` is the place of `p` in `perm`. -/
def inversePermutationResults (perm : List Int) : List AffineExpr :=
  (List.range perm.length).map fun position : Nat => .dim (perm.idxOf (position : Int))

end SymReloc
