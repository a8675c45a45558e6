import SymReloc.Cache.Request

/-!
# The scratch of an engine

The blocks of a typed engine's backend.  A block that a dispatch has taken stays busy to
the end of the dispatch, also when its helpers free it; only `finish` makes the blocks
available again.  An idle block may be reused, or dropped to make room.
-/

namespace SymReloc.Dispatch

open Cache

/-- A scratch block.  `user` is the execution that took it last; the code does not keep
    it. -/
structure Block where
  pointer : Nat
  bytes : Nat
  device : Bool
  pinned : Bool
  busy : Bool
  user : Nat
deriving DecidableEq, Repr

/-- The options of a dispatch that its scratch depends on. -/
structure ScratchOptions where
  pinning : PinningPolicy
  minPinnedBytes : Option Nat
  maxScratchBytes : Nat
deriving DecidableEq, Repr

structure ScratchBackend where
  blocks : List Block
  retainedLimit : Nat
  liveLimit : Nat
  options : ScratchOptions
  failed : Bool
deriving DecidableEq, Repr

/-- The bytes of blocks. -/
def liveBytes (blocks : List Block) : Nat := (blocks.map Block.bytes).sum

/-- Go through the blocks and release those that `drop` names for the bytes still live. -/
def sweep (drop : Nat → Block → Bool) : Nat → List Block → List Block
  | _, [] => []
  | live, b :: rest =>
      if drop live b then sweep drop (live - b.bytes) rest else b :: sweep drop live rest

/-- A block that is never named stays. -/
theorem mem_sweep {drop : Nat → Block → Bool} {blocks : List Block} {live : Nat} {b : Block}
    (hb : b ∈ blocks) (hkeep : ∀ live, drop live b = false) : b ∈ sweep drop live blocks := by
  induction blocks generalizing live with
  | nil => simp at hb
  | cons d rest ih =>
    unfold sweep
    rcases List.mem_cons.mp hb with heq | hmem
    · subst heq
      simp [hkeep live]
    · split
      · exact ih hmem
      · exact List.mem_cons_of_mem _ (ih hmem)

namespace ScratchBackend

/-- The tighter of the engine's limit and that of the options; zero for no limit. -/
def limit (s : ScratchBackend) : Nat :=
  if s.options.maxScratchBytes = 0 then s.liveLimit
  else if s.liveLimit = 0 then s.options.maxScratchBytes
  else min s.liveLimit s.options.maxScratchBytes

def busyBytes (s : ScratchBackend) : Nat := liveBytes (s.blocks.filter Block.busy)

def fitsRetention (s : ScratchBackend) (capacity : Nat) : Bool :=
  capacity ≤ s.retainedLimit ∧ s.busyBytes ≤ s.retainedLimit - capacity

/-- Whether a capacity on top of the live bytes is more than the limit. -/
def exceeds (s : ScratchBackend) (live capacity : Nat) : Bool :=
  s.limit ≠ 0 ∧ (s.limit < capacity ∨ s.limit - capacity < live)

def pinned (s : ScratchBackend) (bytes : Nat) (device : Bool) : Bool :=
  !device && (selectStaging s.options.pinning s.options.minPinnedBytes bytes
    (s.fitsRetention bytes)).pinned

/-- An idle block of the kind, large enough. -/
def serves (s : ScratchBackend) (bytes : Nat) (device : Bool) (b : Block) : Bool :=
  !b.busy && b.device = device && b.pinned = s.pinned bytes device && bytes ≤ b.bytes &&
    (!s.pinned bytes device || s.options.pinning ≠ .auto || s.fitsRetention b.bytes)

/-- The first of the smallest blocks that serve. -/
def best (s : ScratchBackend) (bytes : Nat) (device : Bool) :
    List Block → Option Block → Option Block
  | [], found => found
  | b :: rest, found =>
      if s.serves bytes device b ∧ (∀ d, found = some d → b.bytes < d.bytes) then
        s.best bytes device rest (some b)
      else s.best bytes device rest found

def scratchQuantum : Nat := 256 * 2 ^ 10

/-- Room for small changes of shape, where both budgets allow it. -/
def roundedCapacity (s : ScratchBackend) (bytes : Nat) : Nat :=
  if 2 ^ 20 ≤ bytes ∧ bytes ≤ 2 ^ 64 - 1 - bytes / 8 - scratchQuantum then
    let grown := (bytes + bytes / 8 + scratchQuantum - 1) / scratchQuantum * scratchQuantum
    if s.fitsRetention grown ∧ (s.limit = 0 ∨ grown ≤ s.limit) then grown else bytes
  else bytes

/-- Drop idle blocks to make room for a capacity. -/
def dropIdle (s : ScratchBackend) (capacity : Nat) : List Block :=
  sweep (fun live b => !b.busy && (s.retainedLimit < capacity ||
    s.retainedLimit - capacity < live || s.exceeds live capacity)) (liveBytes s.blocks) s.blocks

/-- The bytes to ask for: rounding must not reject a request that fits. -/
def askedCapacity (s : ScratchBackend) (bytes capacity : Nat) (blocks : List Block) : Nat :=
  if s.exceeds (liveBytes blocks) capacity then bytes else capacity

/-- Take the block with an address for an execution. -/
def take (user : Nat) (pointer : Nat) (blocks : List Block) : List Block :=
  blocks.map fun b =>
    if b.pointer = pointer ∧ b.busy = false then { b with busy := true, user } else b

/-- `allocate`, where the allocator answers with an address or not at all. -/
def allocate (s : ScratchBackend) (user bytes : Nat) (device : Bool) (answer : Option Nat) :
    ScratchBackend × Option Nat :=
  if s.failed then (s, none)
  else
    match s.best bytes device s.blocks none with
    | some b => ({ s with blocks := take user b.pointer s.blocks }, some b.pointer)
    | none =>
        let capacity := s.roundedCapacity bytes
        let blocks := s.dropIdle capacity
        let asked := s.askedCapacity bytes capacity blocks
        if s.exceeds (liveBytes blocks) bytes then ({ s with blocks, failed := true }, none)
        else
          match answer with
          | none => ({ s with blocks, failed := true }, none)
          | some pointer =>
              let b : Block :=
                { pointer, bytes := asked, device, pinned := s.pinned bytes device, busy := true,
                  user }
              ({ s with blocks := blocks ++ [b] }, some pointer)

/-- `begin`: the options of a dispatch, and idle blocks that exceed its limit go. -/
def start (s : ScratchBackend) (options : ScratchOptions) : ScratchBackend :=
  let s := { s with options }
  { s with
    blocks := sweep (fun live b => s.limit ≠ 0 && (s.limit < live && !b.busy))
      (liveBytes s.blocks) s.blocks }

/-- `finish`: every block is idle again, and what exceeds the retained bytes goes. -/
def finish (s : ScratchBackend) : ScratchBackend :=
  { s with
    blocks := sweep (fun live _ => s.retainedLimit < live) (liveBytes s.blocks)
      (s.blocks.map fun b => { b with busy := false }) }

/-! ### Busy blocks -/

/-- The block with an address is busy for an execution. -/
def Holds (s : ScratchBackend) (user pointer : Nat) : Prop :=
  ∃ b ∈ s.blocks, b.pointer = pointer ∧ b.busy = true ∧ b.user = user

variable {s : ScratchBackend} {user pointer : Nat}

theorem mem_take {blocks : List Block} {b : Block} (hb : b ∈ blocks) (hbusy : b.busy = true)
    (user pointer : Nat) : b ∈ take user pointer blocks :=
  List.mem_map.mpr ⟨b, hb, by simp [hbusy]⟩

/-- Taking a block, dropping idle ones and making new ones leaves the busy ones alone. -/
theorem Holds.allocate (h : s.Holds user pointer) (user' bytes : Nat) (device : Bool)
    (answer : Option Nat) : (s.allocate user' bytes device answer).1.Holds user pointer := by
  obtain ⟨b, hb, hpointer, hbusy, huser⟩ := h
  have hkept : ∀ capacity, b ∈ s.dropIdle capacity :=
    fun capacity => mem_sweep hb fun live => by simp [hbusy]
  unfold ScratchBackend.allocate
  split
  · exact ⟨b, hb, hpointer, hbusy, huser⟩
  · split
    · exact ⟨b, mem_take hb hbusy _ _, hpointer, hbusy, huser⟩
    · dsimp only
      split
      · exact ⟨b, hkept _, hpointer, hbusy, huser⟩
      · split
        · exact ⟨b, hkept _, hpointer, hbusy, huser⟩
        · exact ⟨b, List.mem_append_left _ (hkept _), hpointer, hbusy, huser⟩

theorem best_spec {bytes : Nat} {device : Bool} {blocks : List Block} {found : Option Block}
    {b : Block} (h : s.best bytes device blocks found = some b) :
    found = some b ∨ (b ∈ blocks ∧ s.serves bytes device b = true) := by
  induction blocks generalizing found with
  | nil => exact .inl (by simpa [best] using h)
  | cons d rest ih =>
    unfold best at h
    split at h
    · rename_i hserves
      rcases ih h with heq | ⟨hmem, hb⟩
      · cases heq
        exact .inr ⟨List.mem_cons_self, hserves.1⟩
      · exact .inr ⟨List.mem_cons_of_mem _ hmem, hb⟩
    · rcases ih h with heq | ⟨hmem, hb⟩
      · exact .inl heq
      · exact .inr ⟨List.mem_cons_of_mem _ hmem, hb⟩

/-- What an allocation hands out is busy for the execution that asked. -/
theorem holds_allocate {bytes : Nat} {device : Bool} {answer : Option Nat} {p : Nat}
    (h : (s.allocate user bytes device answer).2 = some p) :
    (s.allocate user bytes device answer).1.Holds user p := by
  unfold ScratchBackend.allocate at h ⊢
  split at h
  · cases h
  · rename_i hhealthy
    rw [if_neg hhealthy]
    cases hbest : s.best bytes device s.blocks none with
    | some b =>
      rw [hbest] at h
      cases h
      rcases best_spec hbest with hnone | ⟨hmem, hserves⟩
      · cases hnone
      · have hidle : b.busy = false := by
          simp only [serves, Bool.and_eq_true, Bool.not_eq_true'] at hserves
          exact hserves.1.1.1.1
        exact ⟨{ b with busy := true, user }, List.mem_map.mpr ⟨b, hmem, by simp [hidle]⟩, rfl,
          rfl, rfl⟩
    | none =>
      rw [hbest] at h
      dsimp only at h ⊢
      split at h
      · cases h
      · rename_i hfits
        rw [if_neg hfits]
        cases answer with
        | none => cases h
        | some pointer =>
          cases h
          exact ⟨_, List.mem_append_right _ (List.mem_singleton_self _), rfl, rfl, rfl⟩

end ScratchBackend

end SymReloc.Dispatch
