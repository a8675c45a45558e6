import Mathlib.Algebra.BigOperators.Group.List.Basic
import Mathlib.Algebra.Order.Ring.Int
import SymReloc.WalkBack

/-!
# The fold pass

`RelocFold` walks back from each tail along first operands, and either replaces the chain
by one plan operation or marks all of it for fallback.  A module is the list of its
operations in walk order, each with its address; operands name the operation and the
result that they use.

What the transfer functions compute is a parameter: the pass does not depend on it.
-/

namespace SymReloc.Fold

open WalkBack

/-! ### Operations -/

inductive Kind where
  | transpose
  | reshape
  | pad
  | indexSelect
  | cast
  | quantize
  | dequantize
  | planResult
  | typedPlanResult
  | indexedPlanResult
  /-- Any operation of another dialect. -/
  | foreign
deriving DecidableEq, Repr

def isTypedValueTransformOp : Kind → Bool
  | .cast | .quantize | .dequantize => true
  | _ => false

def isFoldableChainOp : Kind → Bool
  | .transpose | .reshape | .pad | .indexSelect => true
  | kind => isTypedValueTransformOp kind

def isPlanResultOp : Kind → Bool
  | .planResult | .typedPlanResult | .indexedPlanResult => true
  | _ => false

inductive Value where
  | argument (n : Nat)
  | result (address index : Nat)
deriving DecidableEq, Repr

def Value.getDefiningOp : Value → Option Nat
  | .argument _ => none
  | .result address _ => some address

/-- An operation; `payload` stands for its types and its other attributes. -/
structure Operation (A : Type) where
  address : Nat
  kind : Kind
  operands : List Value
  payload : A
  /-- `reloc.fallback`. -/
  fallback : Bool
  /-- `reloc.fallback_reason`. -/
  fallbackReason : Option String
deriving DecidableEq, Repr

/-- The operations in walk order; new ones are allocated from `next` on. -/
structure Body (A : Type) where
  ops : List (Operation A)
  next : Nat
deriving DecidableEq, Repr

variable {A B P : Type}

def Operation.foldable (op : Operation A) : Bool := isFoldableChainOp op.kind

def Operation.result (op : Operation A) : Value := .result op.address 0

def Operation.usesOp (op : Operation A) (p : Nat) : Bool :=
  op.operands.any fun v => v.getDefiningOp = some p

namespace Body

variable (body : Body A)

def find (p : Nat) : Option (Operation A) := body.ops.find? fun op => op.address = p

def foldable (p : Nat) : Bool := (body.find p).any Operation.foldable

/-- The operation that defines the first operand. -/
def rootDef (p : Nat) : Option Nat :=
  (body.find p).bind fun op => op.operands.head?.bind Value.getDefiningOp

/-- The chain operation before one. -/
def source (p : Nat) : Option Nat := (body.rootDef p).filter body.foldable

def getUsers (v : Value) : List (Operation A) := body.ops.filter fun op => v ∈ op.operands

def hasOneUse (v : Value) : Bool := (body.ops.map fun op => op.operands.count v).sum = 1

/-- The foldable operations without a foldable user. -/
def tails : List Nat :=
  (body.ops.filter fun op =>
    op.foldable && !(body.getUsers op.result).any Operation.foldable).map Operation.address

end Body

/-! ### The transfer functions -/

/-- `PlanBuilder` and the plans that it and the attributes' `getChecked` make.  A plan
    builder starts from the type of the chain's root, which its first operation has. -/
structure Transfer (A B P : Type) where
  start : A → B
  foldChainOp : B → Kind → A → Except String B
  hasStages : B → Bool
  finalize : B → Option P
  finalizeTyped : B → Option P
  canonicalize : Bool
  canonicalizePlan : P → Option P
  canonicalizeTypedPlan : P → Option P
  policy : A → String
  indexedPlan : A → A → String → Option P
  planResult : Kind → P → A → A

/-! ### The pass -/

inductive PassError where
  /-- `signalPassFailure`. -/
  | failure
  /-- An operation is used after it is erased. -/
  | dangling
  /-- An operation is erased while its result has uses. -/
  | stillUsed
  /-- The walk back does not end. -/
  | endless
deriving DecidableEq, Repr

/-- What is to be done with a chain. -/
inductive Verdict (A : Type) where
  | fallback (reason : String)
  | replace (kind : Kind) (operands : List Value) (payload : A)
  | failed
deriving DecidableEq, Repr

def markFallback (body : Body A) (chain : List Nat) (reason : String) : Body A :=
  let typed := chain.any fun p => (body.find p).any fun op => isTypedValueTransformOp op.kind
  { body with
    ops := body.ops.map fun op =>
      if op.address ∈ chain then
        { op with
          fallback := true
          fallbackReason :=
            if typed && op.fallbackReason.isNone then some reason else op.fallbackReason }
      else op }

/-- A foreign operation between this chain and one before it. -/
def sandwichedAbove (body : Body A) (root : Operation A) : Bool :=
  (body.rootDef root.address).any fun p => (body.find p).any fun rootDef =>
    !rootDef.foldable && !isPlanResultOp rootDef.kind &&
      rootDef.operands.any fun v => v.getDefiningOp.any body.foldable

/-- A foreign operation between this chain and one after it. -/
def sandwichedBelow (body : Body A) (tail : Operation A) : Bool :=
  (body.getUsers tail.result).any fun user =>
    !user.foldable && !isPlanResultOp user.kind &&
      body.ops.any fun downstream => downstream.foldable && downstream.usesOp user.address

variable (transfer : Transfer A B P)

/-- A chain with an index selection: alone, or with one cast after it. -/
def foldIndexed (chain : List (Operation A)) (root tail : Operation A) : Verdict A :=
  if root.kind ≠ .indexSelect || 2 < chain.length ||
      (chain.length = 2 && tail.kind ≠ .cast) then .fallback "indexed_chain_unsupported"
  else
    let policy := if chain.length = 1 then "exact" else transfer.policy tail.payload
    match transfer.indexedPlan root.payload tail.payload policy with
    | none => .failed
    | some plan => .replace .indexedPlanResult root.operands
        (transfer.planResult .indexedPlanResult plan tail.payload)

def foldChainOps : List (Operation A) → B → Except String B
  | [], builder => .ok builder
  | op :: rest, builder =>
      match transfer.foldChainOp builder op.kind op.payload with
      | .error reason => .error reason
      | .ok builder => foldChainOps rest builder

/-- `finalize` and, unless the pass is told not to, the canonical form. -/
def materialize (finalize : Option P) (canonical : P → Option P) : Option P :=
  finalize.bind fun plan => if transfer.canonicalize then canonical plan else some plan

def foldPlan (chain : List (Operation A)) (root tail : Operation A) : Verdict A :=
  match foldChainOps transfer chain (transfer.start root.payload) with
  | .error reason => .fallback (if reason.isEmpty then "layout_bail" else reason)
  | .ok builder =>
      if transfer.hasStages builder then
        match materialize transfer (transfer.finalizeTyped builder)
          transfer.canonicalizeTypedPlan with
        | none => .failed
        | some plan => .replace .typedPlanResult (root.operands.take 1)
            (transfer.planResult .typedPlanResult plan tail.payload)
      else
        match materialize transfer (transfer.finalize builder) transfer.canonicalizePlan with
        | none => .failed
        | some plan => .replace .planResult (root.operands.take 1)
            (transfer.planResult .planResult plan tail.payload)

/-- What `processChain` decides for a chain, from its root to its tail. -/
def verdict (body : Body A) (chain : List (Operation A)) (root tail : Operation A) : Verdict A :=
  if chain.any Operation.fallback then .fallback "marked"
  else if chain.any fun op => op.address ≠ tail.address && !body.hasOneUse op.result then
    .fallback "structural"
  else if sandwichedAbove body root then .fallback "structural"
  else if sandwichedBelow body tail then .fallback "structural"
  else if chain.any fun op => op.kind = .indexSelect then foldIndexed transfer chain root tail
  else foldPlan transfer chain root tail

/-- The users of one operation's result use another's. -/
def replaceAllUsesWith (p q : Nat) : Value → Value
  | .result address index => if address = p then .result q index else .result address index
  | v => v

/-- The plan operation goes before the tail and takes over its uses. -/
def insertPlan (body : Body A) (tail : Nat) (kind : Kind) (operands : List Value) (payload : A) :
    Body A :=
  let plan : Operation A := ⟨body.next, kind, operands, payload, false, none⟩
  { ops := (body.ops.flatMap fun op => if op.address = tail then [plan, op] else [op]).map fun op =>
      { op with operands := op.operands.map (replaceAllUsesWith tail body.next) }
    next := body.next + 1 }

def erase (body : Body A) (p : Nat) : Except PassError (Body A) :=
  if body.ops.any fun op => op.usesOp p then .error .stillUsed
  else .ok { body with ops := body.ops.filter fun op => op.address ≠ p }

def eraseAll : List Nat → Body A → Except PassError (Body A)
  | [], body => .ok body
  | p :: rest, body =>
      match erase body p with
      | .error error => .error error
      | .ok body => eraseAll rest body

def processChain (body : Body A) (tail : Nat) : Except PassError (Body A) :=
  match collect body.source body.ops.length tail with
  | none => .error .endless
  | some addresses =>
      -- nearest first; the chain goes from the root to the tail
      let chain := addresses.reverse.filterMap body.find
      match chain.head?, chain.getLast? with
      | some rootOp, some tailOp =>
          match verdict transfer body chain rootOp tailOp with
          | .fallback reason => .ok (markFallback body addresses reason)
          | .failed => .error .failure
          | .replace kind operands payload =>
              eraseAll addresses (insertPlan body tail kind operands payload)
      | _, _ => .error .dangling

def processAll : List Nat → Body A → Except PassError (Body A)
  | [], body => .ok body
  | tail :: rest, body =>
      match processChain transfer body tail with
      | .error error => .error error
      | .ok body => processAll rest body

def runOnOperation (body : Body A) : Except PassError (Body A) :=
  processAll transfer body.tails body

end SymReloc.Fold
