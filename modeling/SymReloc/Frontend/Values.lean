import SymReloc.Word
import Mathlib.Data.List.Basic

/-!
# Values of the Python frontend

Devices, tensors, output descriptors and symbolic extents as the guarded execution
boundary reads them, and the exceptions it tells apart.
-/

namespace SymReloc.Frontend

/-! ### Devices and tensors -/

/-- `torch.device`. -/
structure Device where
  kind : String
  index : Option Int
deriving DecidableEq, Repr

def Device.text (device : Device) : String :=
  match device.index with
  | none => device.kind
  | some index => device.kind ++ ":" ++ toString index

/-- What is read of a tensor; `identity` is the object. -/
structure Tensor where
  identity : Nat
  /-- A `Tensor` or a `Parameter`, and no subclass of them. -/
  plain : Bool
  requiresGrad : Bool
  device : Device
  dtype : String
  strided : Bool
  shape : List Int
  stride : List Int
  storageOffset : Int
  nbytes : Nat
  contiguous : Bool
  negated : Bool
  conjugated : Bool
deriving DecidableEq, Repr

/-- What a call may return. -/
inductive Value where
  | tensor (tensor : Tensor)
  | object
deriving DecidableEq, Repr

/-- `storage_snapshot`. -/
structure Snapshot where
  shape : List Int
  stride : List Int
  offset : Int
  dtype : String
  device : String
  base : Int
  capacity : Int
deriving DecidableEq, Repr

/-- Logical output metadata. -/
structure ConcreteDescriptor where
  shape : List Int
  strides : List Int
  dtype : String
  device : Device
deriving DecidableEq, Repr

/-! ### Exceptions -/

/-- A tuple as Python prints it. -/
def tupleText : List String → String
  | [item] => "(" ++ item ++ ",)"
  | items => "(" ++ String.intercalate ", " items ++ ")"

def namesText (names : List String) : String :=
  tupleText (names.map fun name => "'" ++ name ++ "'")

def intsText (values : List Int) : String := tupleText (values.map toString)

/-- Shape, strides, dtype and offset, as `verify_result` compares them. -/
structure Metadata where
  shape : List Int
  strides : List Int
  dtype : String
  offset : Int
deriving DecidableEq, Repr

def Metadata.text (metadata : Metadata) : String :=
  tupleText [intsText metadata.shape, intsText metadata.strides, "'" ++ metadata.dtype ++ "'",
    toString metadata.offset]

/-- The `RuntimeError`s of the boundary, each with the values it prints. -/
inductive RuntimeFailure where
  | closed
  | parameterCount (names : List String) (entry : String) (got : Nat)
  | symbolCount (names : List String) (got : Nat)
  | placeholders (rank : Nat) (symbols : List String)
  | notTensor
  | aliased
  | metadata (actual expected : Metadata)
  | resultDevice (found wanted : Device)
  | declared (wanted : List Int × List Int) (direction : String) (found : List Int × List Int)
  | disagreed
deriving DecidableEq, Repr

def RuntimeFailure.message : RuntimeFailure → String
  | .closed => "execution entry is closed"
  | .parameterCount names entry got =>
      "expected " ++ toString names.length ++ " runtime parameters " ++ namesText names ++
        " for " ++ entry ++ ", got " ++ toString got
  | .symbolCount names got =>
      "expected " ++ toString names.length ++ " symbol values for " ++ namesText names ++
        ", got " ++ toString got
  | .placeholders rank symbols =>
      "cannot evaluate the original region's scalar placeholders for a source of rank " ++
        toString rank ++ " (recipe symbols " ++ namesText symbols ++ ")"
  | .notTensor => "reloc_torch produced a non-tensor result"
  | .aliased => "reloc_torch result must not alias its input"
  | .metadata actual expected =>
      "reloc_torch output metadata mismatch: got " ++ actual.text ++ ", expected " ++
        expected.text
  | .resultDevice found wanted =>
      "reloc_torch output device " ++ found.text ++ " does not match declared " ++ wanted.text
  | .declared wanted direction found =>
      "declared output metadata " ++ intsText wanted.1 ++ "/" ++ intsText wanted.2 ++
        " does not match the compiled " ++ direction ++ " descriptor " ++ intsText found.1 ++
        "/" ++ intsText found.2
  | .disagreed => "runtime adapter disagreed with the frontend binding"

/-- What can be raised. -/
inductive Raised where
  /-- `UnsupportedRecipe`: the expected rejection. -/
  | unsupported (reason detail : String)
  | guard (reason : String)
  | key (name : String)
  | runtime (failure : RuntimeFailure)
  /-- `ExecutionError`. -/
  | execution (message direction : String) (handle : Option String)
  /-- Any other `Exception`. -/
  | exception (text : String)
  /-- What is no `Exception`: an interrupt, an exit. -/
  | interrupt (text : String)
deriving DecidableEq, Repr

/-- `str(error)`. -/
def Raised.text : Raised → String
  | .unsupported reason detail => reason ++ ": " ++ detail
  | .guard reason => reason
  | .key name => "'" ++ name ++ "'"
  | .runtime failure => failure.message
  | .execution message _ _ => message
  | .exception text => text
  | .interrupt text => text

/-- `except Exception` catches it. -/
def Raised.isException : Raised → Bool
  | .interrupt _ => false
  | _ => true

/-! ### Symbolic extents -/

abbrev Bindings := List (String × Int)

/-- Equality of dictionaries. -/
def Bindings.same (left right : Bindings) : Bool :=
  left.length == right.length &&
    left.all fun entry => right.lookup entry.1 == some entry.2

inductive Expr where
  | const (value : Int)
  | symbol (name : String)
  | add (lhs rhs : Expr)
  | mul (lhs rhs : Expr)
  | floorDiv (lhs : Expr) (divisor : Int) (positive : 0 < divisor)
  | mod (lhs : Expr) (divisor : Int) (positive : 0 < divisor)
deriving DecidableEq

/-- An expression as Python prints it. -/
def Expr.text : Expr → String
  | .const value => "Const(value=" ++ toString value ++ ")"
  | .symbol name => "Symbol(name='" ++ name ++ "')"
  | .add lhs rhs => "Add(lhs=" ++ lhs.text ++ ", rhs=" ++ rhs.text ++ ")"
  | .mul lhs rhs => "Mul(lhs=" ++ lhs.text ++ ", rhs=" ++ rhs.text ++ ")"
  | .floorDiv lhs divisor _ =>
      "FloorDiv(lhs=" ++ lhs.text ++ ", divisor=" ++ toString divisor ++ ")"
  | .mod lhs divisor _ => "Mod(lhs=" ++ lhs.text ++ ", divisor=" ++ toString divisor ++ ")"

/-- `_i64`, where the evaluation is checked. -/
def i64 (checked : Bool) (value : Int) : Except Raised Int :=
  if checked = true ∧ ¬ FitsI64 value then .error (.guard "integer_overflow") else .ok value

/-- `evaluate`. -/
def Expr.evaluate (checked : Bool) (bindings : Bindings) : Expr → Except Raised Int
  | .const value => i64 checked value
  | .symbol name =>
      match bindings.lookup name with
      | some value => i64 checked value
      | none => .error (.key name)
  | .add lhs rhs => do
      let l ← lhs.evaluate checked bindings
      let r ← rhs.evaluate checked bindings
      i64 checked (l + r)
  | .mul lhs rhs => do
      let l ← lhs.evaluate checked bindings
      let r ← rhs.evaluate checked bindings
      i64 checked (l * r)
  | .floorDiv lhs divisor _ => do
      let l ← lhs.evaluate checked bindings
      let d ← i64 checked divisor
      i64 checked (l.fdiv d)
  | .mod lhs divisor _ => do
      let l ← lhs.evaluate checked bindings
      let d ← i64 checked divisor
      i64 checked (l.fmod d)

/-! ### The source guard -/

def admittedDtypes : List String := ["float32", "float16", "bfloat16", "int8"]

/-- `source_reason`: why the source is not admitted. -/
def sourceReason (gradEnabled : Bool) (src : Tensor) : Option String :=
  if src.plain = false then some "tensor_subclass"
  else if src.requiresGrad = true ∧ gradEnabled = true then some "requires_grad"
  else if (src.device.kind ≠ "cpu" ∧ src.device.kind ≠ "cuda") ∨
      (src.device.kind = "cpu" ∧ src.device.index ≠ none) ∨
      (src.device.kind = "cuda" ∧ ∀ index ∈ src.device.index, index < 0) then
    some "unsupported_device"
  else if src.dtype ∉ admittedDtypes then some "unsupported_dtype"
  else if src.strided = false then some "unsupported_layout"
  else if src.shape = [] then some "unsupported_rank"
  else if 0 ∈ src.shape ∨ src.nbytes = 0 then some "empty_tensor"
  else if src.storageOffset ≠ 0 then some "storage_offset"
  else if src.contiguous = false then some "unsupported_layout"
  else none

/-! ### The promise of a result -/

/-- A tensor that keeps the promise: the strides count only where there is more than one
    index. -/
structure Tensor.Fulfils (result : Tensor) (destination : ConcreteDescriptor) : Prop where
  shape : result.shape = destination.shape
  dtype : result.dtype = destination.dtype
  offset : result.storageOffset = 0
  strides : ∀ entry ∈ result.shape.zip (result.stride.zip destination.strides),
    entry.1 ≠ 1 → entry.2.1 = entry.2.2
  kind : result.device.kind = destination.device.kind
  index : ∀ index ∈ destination.device.index, result.device.index = some index

def Tensor.metadata (result : Tensor) : Metadata where
  shape := result.shape
  strides := result.stride
  dtype := result.dtype
  offset := result.storageOffset

def ConcreteDescriptor.metadata (destination : ConcreteDescriptor) : Metadata where
  shape := destination.shape
  strides := destination.strides
  dtype := destination.dtype
  offset := 0

/-- `verify_result`; `isAlias` is the test of the tensor library. -/
def verifyResult (isAlias : Tensor → Tensor → Bool) (result : Value) (src : Tensor)
    (destination : ConcreteDescriptor) : Except Raised Value :=
  match result with
  | .object => .error (.runtime .notTensor)
  | .tensor result =>
      if isAlias result src = true then .error (.runtime .aliased)
      else if result.shape ≠ destination.shape ∨ result.dtype ≠ destination.dtype ∨
          result.storageOffset ≠ 0 then
        .error (.runtime (.metadata result.metadata destination.metadata))
      else if (result.shape.zip (result.stride.zip destination.strides)).any (fun entry =>
          entry.1 != 1 && entry.2.1 != entry.2.2) then
        .error (.runtime (.metadata result.metadata destination.metadata))
      else if result.device.kind ≠ destination.device.kind ∨
          (destination.device.index ≠ none ∧
            result.device.index ≠ destination.device.index) then
        .error (.runtime (.resultDevice result.device destination.device))
      else .ok (.tensor result)

/-- A verified result is a tensor of its own that keeps the promise. -/
theorem verifyResult_eq_ok {isAlias : Tensor → Tensor → Bool} {result value : Value}
    {src : Tensor} {destination : ConcreteDescriptor}
    (h : verifyResult isAlias result src destination = .ok value) :
    value = result ∧ ∃ tensor, result = .tensor tensor ∧ isAlias tensor src = false ∧
      tensor.Fulfils destination := by
  cases result with
  | object => cases h
  | tensor tensor =>
      unfold verifyResult at h
      dsimp only at h
      split at h
      · cases h
      · rename_i halias
        split at h
        · cases h
        · rename_i hmetadata
          split at h
          · cases h
          · rename_i hstrides
            split at h
            · cases h
            · rename_i hdevice
              cases h
              push Not at hmetadata
              refine ⟨rfl, tensor, rfl, by simpa using halias, hmetadata.1, hmetadata.2.1,
                hmetadata.2.2, ?_, ?_, ?_⟩
              · intro entry hentry hone
                rw [Bool.not_eq_true, List.any_eq_false] at hstrides
                simpa [hone] using hstrides entry hentry
              · by_contra hkind
                exact hdevice (.inl hkind)
              · intro index hindex
                by_contra hne
                rw [Option.mem_def] at hindex
                rw [hindex] at hdevice
                exact hdevice (.inr ⟨by simp, hne⟩)

end SymReloc.Frontend
