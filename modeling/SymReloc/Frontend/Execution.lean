import SymReloc.Frontend.Values
import SymReloc.Throwing

/-!
# The guarded execution boundary

`execute_or_fallback` guards a source, binds the symbols of its recipe, and then runs one
of the saved original region, the runtime adapter and the placement replay.  Everything it
calls outside of this file may do anything to the world and may raise anything; it finds
the thread's state as it is at the call, and leaves it so.
-/

namespace SymReloc.Frontend

open Throwing Effect

/-! ### The state of a thread and of a run -/

/-- `_local.validated_binding`; artifacts and sources are compared as objects. -/
structure Validated where
  compiled : Nat
  source : Nat
  snapshot : Snapshot
  bindings : Bindings
  destination : Option ConcreteDescriptor
  gradient : Bool × Bool
deriving DecidableEq, Repr

/-- What the module keeps for a thread; `diagnostics` is the object that counts binds. -/
structure Local where
  depth : Int
  validated : Option Validated
  diagnostics : Option Nat
deriving DecidableEq, Repr

/-- The calls that run the region, in one form or another. -/
inductive Invocation where
  | original
  | execute
  | replay
deriving DecidableEq, Repr

structure Run (W : Type) where
  thread : Local
  invoked : List Invocation
  fallbackCalls : Nat
  world : W

/-- A call out of this file. -/
def Callback (W α : Type) : Type := Local → W → Exit Raised α × W

abbrev Action (W α : Type) : Type := Effect (Run W) Raised α

def call {W α : Type} (callback : Callback W α) : Action W α := fun s =>
  ((callback s.thread s.world).1, { s with world := (callback s.thread s.world).2 })

/-- A call that runs the region. -/
def invoke {W α : Type} (which : Invocation) (callback : Callback W α) : Action W α := do
  update fun s => { s with invoked := s.invoked ++ [which] }
  call callback

/-! ### What a call is given -/

structure SymbolSource where
  name : String
  axis : Nat
deriving DecidableEq, Repr

structure TensorSpec where
  shape : List Expr
  strides : List Expr
  offset : Expr
  dtype : String

/-- A compiled recipe. -/
structure CompiledRecipe (W : Type) where
  identity : Nat
  symbols : List String
  symbolSources : List SymbolSource
  typed : Bool
  /-- The names of the declared parameters. -/
  parameters : List String
  direction : String
  sourceDtype : String
  /-- The number of casts among the operations. -/
  casts : Nat
  logicalDestination : TensorSpec
  /-- The cached description of the destination, where the artifact has one. -/
  destinationMetadata : Option (Bindings → Except Raised (List Int × List Int × String))
  bindValues : Tensor → Option Tensor → Callback W Bindings

structure Diagnostics (W : Type) where
  identity : Nat
  increment : String → Callback W Unit
  recordFallback : String → Callback W Unit
  recordDispatch : List (String × String) → Callback W Unit
  recordStaging : List (List (String × String)) → Callback W Unit

structure PreflightOptions where
  nonBlocking : Bool
  implementation : Option String
  index : Option Tensor
  parameters : Option (List (String × Tensor))

/-- What a preflight returns: any object, read through its attributes. -/
structure PreparedCall (W : Type) where
  bindings : Callback W Bindings
  destinationShape : Callback W (List Int)
  recheck : Callback W Unit
  consume : Callback W Unit
  report : Callback W (Option (List (String × String)))
  staging : Callback W (List (List (String × String)))

structure Decision where
  path : String
  key : List String
deriving DecidableEq, Repr

structure PlacementPolicy (W : Type) where
  choose : CompiledRecipe W → Tensor → Device → Callback W (Option Decision)
  succeeded : Decision → Callback W Unit

/-- A runtime adapter, with its placement policy if it has one. -/
structure RuntimeAdapter (W : Type) where
  /-- An instance of `TransportAdapter`. -/
  transport : Bool
  placement : Option (PlacementPolicy W)
  preflight : CompiledRecipe W → Tensor → Device → PreflightOptions → Callback W (PreparedCall W)
  execute : PreparedCall W → Callback W Value

structure ExecutionEntry (W : Type) where
  compiled : CompiledRecipe W
  original : Tensor → List Int → List Tensor → Callback W Value
  runtime : RuntimeAdapter W
  diagnostics : Diagnostics W
  symbolicBindings : List (String × Expr)
  extentGuards : List Expr
  closed : W → Bool
  indexed : Bool
  handle : Option String

/-- The tensor library, as far as it is used here. -/
structure Torch (W : Type) where
  gradEnabled : W → Bool
  isAlias : Tensor → Tensor → Bool
  storageSnapshot : Tensor → Callback W Snapshot
  /-- Wait for the current stream of a device. -/
  synchronize : Device → Callback W Unit
  /-- `replay` of the recipe along a path. -/
  replay : CompiledRecipe W → Tensor → Device → String → Callback W Value

variable {W α : Type}

/-! ### The state that is restored -/

/-- `suspend_interception`. -/
def suspendInterception (body : Action W α) : Action W α := do
  update fun s => { s with thread := { s.thread with depth := s.thread.depth + 1 } }
  ensuring body fun s => { s with thread := { s.thread with depth := s.thread.depth - 1 } }

/-- `_validated_binding`. -/
def validatedBinding (torch : Torch W) (compiled : CompiledRecipe W) (src : Tensor)
    (bindings : Bindings) (destination : Option ConcreteDescriptor) (body : Action W α) :
    Action W α := do
  let previous ← read fun s => s.thread.validated
  let snapshot ← call (torch.storageSnapshot src)
  let enabled ← read fun s => torch.gradEnabled s.world
  update fun s => { s with thread := { s.thread with
    validated := some { compiled := compiled.identity, source := src.identity, snapshot, bindings,
                        destination, gradient := (src.requiresGrad, enabled) } } }
  ensuring body fun s => { s with thread := { s.thread with validated := previous } }

/-- `_counting_binds`. -/
def countingBinds (diagnostics : Diagnostics W) (body : Action W α) : Action W α := do
  let previous ← read fun s => s.thread.diagnostics
  update fun s => { s with thread := { s.thread with diagnostics := some diagnostics.identity } }
  ensuring body fun s => { s with thread := { s.thread with diagnostics := previous } }

/-! ### Binding the symbols -/

/-- A failed guard is an expected rejection. -/
def refuseGuard (error : Raised) : Action W α :=
  match error with
  | .guard reason => throw (.unsupported reason reason)
  | error => throw error

/-- `bind_symbols`. -/
def bindSymbols (torch : Torch W) (compiled : CompiledRecipe W) (src : Tensor) :
    Action W Bindings := do
  let fresh := (call (compiled.bindValues src none)).handle refuseGuard
  let validated ← read fun s => s.thread.validated
  match validated with
  | none => fresh
  | some validated =>
      if validated.compiled = compiled.identity ∧ validated.source = src.identity then do
        let snapshot ← call (torch.storageSnapshot src)
        if validated.snapshot = snapshot then pure validated.bindings else fresh
      else fresh

/-- `bind_index_select`. -/
def bindIndexSelect (torch : Torch W) (compiled : CompiledRecipe W) (source index : Tensor) :
    Action W Bindings := do
  let enabled ← read fun s => torch.gradEnabled s.world
  match sourceReason enabled source with
  | some reason => throw (.unsupported reason ("index_select source rejected: " ++ reason))
  | none =>
      if source.device.kind ≠ "cpu" ∨ source.shape.length < 1 ∨ source.contiguous = false ∨
          source.negated = true ∨ source.conjugated = true then
        throw (.unsupported "unsupported_index_select" "expected a dense CPU source")
      else if index.plain = false ∨ index.device.kind ≠ "cpu" ∨ index.strided = false ∨
          index.shape.length ≠ 1 ∨ (index.dtype ≠ "int32" ∧ index.dtype ≠ "int64") then
        throw (.unsupported "unsupported_index_select" "expected a CPU int32/int64 index vector")
      else (call (compiled.bindValues source (some index))).handle refuseGuard

/-! ### The destination -/

/-- A missing symbol or a failed guard is an expected rejection. -/
def refuseMissing : Raised → Raised
  | .key name => .unsupported "missing_symbol" (Raised.key name).text
  | .guard reason => .unsupported reason reason
  | error => error

/-- `destination_descriptor`. -/
def destinationDescriptor (compiled : CompiledRecipe W) (bindings : Bindings) (device : Device) :
    Except Raised ConcreteDescriptor :=
  match compiled.destinationMetadata with
  | some describe => do
      let (shape, strides, dtype) ← (describe bindings).mapError refuseMissing
      pure { shape, strides, dtype, device }
  | none => do
      let evaluate := fun expr : Expr => (expr.evaluate true bindings).mapError refuseMissing
      let logical := compiled.logicalDestination
      let shape ← logical.shape.mapM evaluate
      let strides ← logical.strides.mapM evaluate
      let offset ← evaluate logical.offset
      if offset ≠ 0 ∨ ∃ extent ∈ shape, extent ≤ 0 then
        throw (.unsupported "destination_descriptor" "expected dense positive zero-offset output")
      else pure { shape, strides, dtype := logical.dtype, device }

/-- The guarded extents bind to two at least. -/
def checkExtents (bindings : Bindings) : List Expr → Except Raised Unit
  | [] => .ok ()
  | guard :: rest => do
      let extent ← guard.evaluate true bindings
      if extent < 2 then
        throw (.unsupported "singleton_extent" (guard.text ++ " binds below two"))
      else checkExtents bindings rest

/-! ### The original region -/

/-- `ExecutionEntry.describe`. -/
def ExecutionEntry.describe (entry : ExecutionEntry W) : String :=
  entry.handle.getD "unregistered entry"

/-- `ExecutionEntry.scalar_arguments`. -/
def ExecutionEntry.scalarArguments (entry : ExecutionEntry W) (symbols : List Int) :
    Except Raised (List Int) :=
  if entry.symbolicBindings = [] then .ok []
  else
    let names := entry.compiled.symbols
    if symbols.length ≠ names.length then
      .error (.runtime (.symbolCount names symbols.length))
    else entry.symbolicBindings.mapM fun binding => binding.2.evaluate false (names.zip symbols)

/-- `ExecutionEntry.fallback`. -/
def ExecutionEntry.fallback (entry : ExecutionEntry W) (src : Tensor) (symbols : List Int)
    (parameters : List Tensor) : Action W Value := do
  update fun s => { s with fallbackCalls := s.fallbackCalls + 1 }
  let scalars ← settle (entry.scalarArguments symbols)
  invoke .original (entry.original src scalars parameters)

/-- `_derived_symbols`. -/
def derivedSymbols (compiled : CompiledRecipe W) (src : Tensor) : Option (List Int) :=
  compiled.symbols.mapM fun name => do
    let source ← compiled.symbolSources.find? fun source => source.name = name
    src.shape[source.axis]?

/-- The symbol values of a fallback. -/
def fallbackSymbols (entry : ExecutionEntry W) (src : Tensor) (symbols : Option (List Int)) :
    Except Raised (List Int) :=
  match symbols with
  | some symbols => .ok symbols
  | none =>
      if entry.symbolicBindings = [] then .ok []
      else
        match derivedSymbols entry.compiled src with
        | some symbols => .ok symbols
        | none => .error (.runtime (.placeholders src.shape.length entry.compiled.symbols))

section Call

variable (torch : Torch W) (entry : ExecutionEntry W) (src : Tensor) (symbols : Option (List Int))
  (device : Device) (parameters : List Tensor)

/-- `_fallback`. -/
def fallback (reason : String) (promised : Option ConcreteDescriptor) : Action W Value := do
  let symbols ← settle (fallbackSymbols entry src symbols)
  call (entry.diagnostics.recordFallback reason)
  let result ← entry.fallback src symbols parameters
  match promised with
  | none => pure result
  | some promised => settle (verifyResult torch.isAlias result src promised)

/-! ### The boundary -/

/-- The outcome of the frontend's guards. -/
inductive Admission where
  | rejected (reason : String)
  | admitted (bindings : Bindings) (destination : ConcreteDescriptor)
deriving DecidableEq, Repr

/-- The exceptions of the guards that are rejections. -/
def rejection : Raised → Option String
  | .unsupported reason _ => some reason
  | .key _ => some "missing_symbol"
  | .guard reason => some reason
  | _ => none

/-- The bindings; row selection also reads its index operand. -/
def bindOperands : Action W Bindings :=
  if entry.indexed = true then
    match parameters with
    | index :: _ => bindIndexSelect torch entry.compiled src index
    | [] => throw (.exception "tuple index out of range")
  else bindSymbols torch entry.compiled src

/-- The bindings and the destination, from the metadata of the source. -/
def bindSource : Action W Admission := do
  let bindings ← bindOperands torch entry src parameters
  let destination ← settle (destinationDescriptor entry.compiled bindings device)
  settle (checkExtents bindings entry.extentGuards)
  pure (.admitted bindings destination)

/-- The guards: a rejection has a reason, any other exception leaves. -/
def runAdmission : Action W Admission := do
  let enabled ← read fun s => torch.gradEnabled s.world
  match sourceReason enabled src with
  | some reason => pure (.rejected reason)
  | none => (bindSource torch entry src device parameters).handle fun error =>
      match rejection error with
      | some reason => pure (.rejected reason)
      | none => throw error

/-- `gpu_implementation`. -/
def gpuImplementation (compiled : CompiledRecipe W) : String :=
  if compiled.direction = "d2h" then "cuda_stages_then_cpu@" ++ toString compiled.casts
  else if compiled.sourceDtype = "float32" then "cuda_relocate_f32"
  else "cpu_stages_cuda_stages@0"

/-- The CUDA device of a transfer. -/
def cudaDevice : Device := if entry.compiled.direction = "h2d" then device else src.device

/-- Where a launch has failed the error is terminal. -/
def launchFailure (what : String) (error : Raised) : Action W α :=
  if error.isException = true then
    throw (.execution (what ++ " execution failed for " ++ entry.describe ++ ": " ++ error.text)
      entry.compiled.direction entry.handle)
  else throw error

/-- The original region and a wait for its device, or the replay. -/
def runDirect (path : String) : Action W Value :=
  if path = "native" then do
    let scalars ← settle (entry.scalarArguments (symbols.getD []))
    let result ← invoke .original (entry.original src scalars parameters)
    call (torch.synchronize (cudaDevice entry src device))
    pure result
  else invoke .replay (torch.replay entry.compiled src device path)

/-- A placement that runs without the adapter. -/
def place (policy : PlacementPolicy W) (decision : Decision) (promised : ConcreteDescriptor) :
    Action W Value := do
  let result ← handle (do
      let result ← runDirect torch entry src symbols device parameters decision.path
      settle (verifyResult torch.isAlias result src promised))
    (launchFailure entry ("placement " ++ decision.path))
  call (policy.succeeded decision)
  pure result

/-- `UnsupportedRecipe`, which before a launch is a reason to fall back. -/
def expectedRejection : Raised → Option (String × String)
  | .unsupported reason detail => some (reason, detail)
  | _ => none

/-- The preflight: a prepared call, or the reason to fall back.  A placement that was
    decided does not fall back. -/
def preflight (decision : Option (PlacementPolicy W × Decision)) (options : PreflightOptions)
    (bindings : Bindings) (destination : ConcreteDescriptor) :
    Action W (String ⊕ PreparedCall W) :=
  handle (do
      let prepared ← countingBinds entry.diagnostics
        (validatedBinding torch entry.compiled src bindings (some destination)
          (call (entry.runtime.preflight entry.compiled src device options)))
      pure (.inr prepared))
    fun error =>
      match expectedRejection error, decision with
      | none, _ => throw error
      | some _, some (_, decision) =>
          throw (.unsupported "placement_unavailable" (decision.path ++ ": " ++ error.text))
      | some (reason, _), none => pure (.inl reason)

/-- The prepared call has the bindings and the shape of the frontend. -/
def agrees (prepared : PreparedCall W) (bindings : Bindings) (destination : ConcreteDescriptor) :
    Action W Bool := do
  let found ← call prepared.bindings
  if found.same bindings = false then pure false
  else do
    let shape ← call prepared.destinationShape
    pure (decide (shape = destination.shape))

def recordReport (report : Option (List (String × String))) : Action W Unit :=
  match report with
  | some report => call (entry.diagnostics.recordDispatch report)
  | none => pure ()

def recordSuccess (decision : Option (PlacementPolicy W × Decision)) : Action W Unit :=
  match decision with
  | some (policy, decision) => call (policy.succeeded decision)
  | none => pure ()

/-- The launch of a prepared call. -/
def launch (decision : Option (PlacementPolicy W × Decision)) (prepared : PreparedCall W)
    (bindings : Bindings) (destination promised : ConcreteDescriptor) : Action W Value := do
  let agreed ← agrees prepared bindings destination
  if agreed = false then throw (.runtime .disagreed)
  else do
    call prepared.recheck
    call prepared.consume
    call (entry.diagnostics.increment "runtime_executions")
    let result ← handle (invoke .execute (entry.runtime.execute prepared))
      (launchFailure entry ("reloc_torch " ++ entry.compiled.direction))
    let report ← call prepared.report
    recordReport entry report
    let staging ← call prepared.staging
    call (entry.diagnostics.recordStaging staging)
    let result ← settle (verifyResult torch.isAlias result src promised)
    recordSuccess decision
    pure result

/-- The adapter, for a source that is bound. -/
def transfer (decision : Option (PlacementPolicy W × Decision)) (bindings : Bindings)
    (destination promised : ConcreteDescriptor) : Action W Value :=
  let implementation := match decision with
    | some (_, decision) =>
        if entry.compiled.typed = true then
          some (if decision.path = "sym_cpu" then "cpu_reference"
            else gpuImplementation entry.compiled)
        else none
    | none => none
  if entry.indexed = true ∧ entry.runtime.transport = false then
    fallback torch entry src symbols parameters "indexed_runtime_unavailable" (some promised)
  else do
    let options : PreflightOptions :=
      { nonBlocking := false
        implementation
        index := if entry.indexed = true then parameters.head? else none
        parameters :=
          if entry.indexed = false ∧ entry.compiled.typed = true then
            some (entry.compiled.parameters.zip parameters)
          else none }
    let prepared ← preflight torch entry src device decision options bindings destination
    match prepared with
    | .inl reason => fallback torch entry src symbols parameters reason (some promised)
    | .inr prepared => launch torch entry src decision prepared bindings destination promised

/-- The paths that run without the adapter. -/
def directPaths : List String := ["native", "torch_cpu", "torch_gpu"]

/-- The placement policy decides, where there is one. -/
def dispatch (bindings : Bindings) (destination promised : ConcreteDescriptor) :
    Action W Value := do
  match entry.runtime.placement with
  | none => transfer torch entry src symbols device parameters none bindings destination promised
  | some policy => do
      let decision ← call (policy.choose entry.compiled src device)
      match decision with
      | none =>
          transfer torch entry src symbols device parameters none bindings destination promised
      | some decision =>
          if decision.path ∈ directPaths then
            place torch entry src symbols device parameters policy decision promised
          else
            transfer torch entry src symbols device parameters (some (policy, decision)) bindings
              destination promised

/-- `bindings[name]`, for the symbols of the recipe. -/
def expectedSymbols (compiled : CompiledRecipe W) (bindings : Bindings) :
    Except Raised (List Int) :=
  compiled.symbols.mapM fun name =>
    match bindings.lookup name with
    | some value => .ok value
    | none => .error (.key name)

/-- The symbol values supplied are the bound ones. -/
def symbolsAgree (bindings : Bindings) : Except Raised Bool :=
  match symbols with
  | none => .ok true
  | some symbols => do
      let expected ← expectedSymbols entry.compiled bindings
      pure (decide (symbols = expected))

/-- Declared metadata agrees with the descriptor. -/
def checkDeclared (declared : Option ConcreteDescriptor) (destination : ConcreteDescriptor) :
    Except Raised Unit :=
  match declared with
  | none => .ok ()
  | some declared =>
      if declared.shape ≠ destination.shape ∨ declared.strides ≠ destination.strides then
        .error (.runtime (.declared (declared.shape, declared.strides) entry.compiled.direction
          (destination.shape, destination.strides)))
      else .ok ()

/-- The body that runs with interception suspended. -/
def guarded (nonBlocking : Bool) (declared : Option ConcreteDescriptor) : Action W Value :=
  if nonBlocking = true then
    fallback torch entry src symbols parameters "nonblocking_unavailable" declared
  else do
    let admission ← runAdmission torch entry src device parameters
    match admission with
    | .rejected reason => fallback torch entry src symbols parameters reason declared
    | .admitted bindings destination => do
        let promised := declared.getD destination
        let agree ← settle (symbolsAgree entry symbols bindings)
        if agree = false then
          fallback torch entry src symbols parameters "symbol_mismatch" (some promised)
        else do
          settle (checkDeclared entry declared destination)
          dispatch torch entry src symbols device parameters bindings destination promised

/-- The names of the runtime parameters. -/
def parameterNames : List String :=
  if entry.indexed = true then ["index"]
  else if entry.compiled.typed = true then entry.compiled.parameters
  else []

/-- `execute_or_fallback`. -/
def executeOrFallback (nonBlocking : Bool) (declared : Option ConcreteDescriptor) :
    Action W Value := do
  let closed ← read fun s => entry.closed s.world
  if closed = true then throw (.runtime .closed)
  else if parameters.length ≠ (parameterNames entry).length then
    throw (.runtime (.parameterCount (parameterNames entry) entry.describe parameters.length))
  else
    suspendInterception
      (guarded torch entry src symbols device parameters nonBlocking declared)

end Call

end SymReloc.Frontend
