import Mathlib.Data.List.Nodup
import SymReloc.Dispatch.Scratch
import SymReloc.Runs

/-!
# The accounts of the scratch

The scratch of an engine with its counter of live bytes, as `begin`, `allocate` and `finish`
update it.  Blocks are handed out once in a dispatch, and the counter is what the blocks
add up to.
-/

namespace SymReloc.Dispatch

open Cache

/-! ### Releasing blocks -/

/-- The live bytes after `sweep`, one subtraction for each block that goes. -/
def sweepLive (drop : Nat → Block → Bool) : Nat → List Block → Nat
  | live, [] => live
  | live, b :: rest =>
      if drop live b then sweepLive drop (live - b.bytes) rest else sweepLive drop live rest

theorem liveBytes_cons (b : Block) (rest : List Block) :
    liveBytes (b :: rest) = b.bytes + liveBytes rest := rfl

theorem liveBytes_append (blocks blocks' : List Block) :
    liveBytes (blocks ++ blocks') = liveBytes blocks + liveBytes blocks' := by
  rw [liveBytes, List.map_append, List.sum_append]
  rfl

theorem liveBytes_map (change : Block → Block) (h : ∀ b, (change b).bytes = b.bytes)
    (blocks : List Block) : liveBytes (blocks.map change) = liveBytes blocks := by
  rw [liveBytes, List.map_map]
  exact congrArg List.sum (List.map_congr_left fun b _ => h b)

/-- The counter follows the blocks. -/
theorem sweepLive_eq (drop : Nat → Block → Bool) (other : Nat) (blocks : List Block) :
    sweepLive drop (other + liveBytes blocks) blocks =
      other + liveBytes (sweep drop (other + liveBytes blocks) blocks) := by
  induction blocks generalizing other with
  | nil => rfl
  | cons b rest ih =>
      rw [sweepLive, sweep]
      split
      · have hless : other + liveBytes (b :: rest) - b.bytes = other + liveBytes rest := by
          rw [liveBytes_cons]
          omega
        rw [hless, ih]
      · have hmore : other + liveBytes (b :: rest) = other + b.bytes + liveBytes rest := by
          rw [liveBytes_cons]
          omega
        rw [hmore, ih, liveBytes_cons]
        omega

theorem sweepLive_le (drop : Nat → Block → Bool) (live : Nat) (blocks : List Block) :
    sweepLive drop live blocks ≤ live := by
  induction blocks generalizing live with
  | nil => exact le_refl live
  | cons b rest ih =>
      rw [sweepLive]
      split
      · exact (ih _).trans (Nat.sub_le _ _)
      · exact ih live

theorem sublist_sweep (drop : Nat → Block → Bool) (live : Nat) (blocks : List Block) :
    (sweep drop live blocks).Sublist blocks := by
  induction blocks generalizing live with
  | nil => exact List.Sublist.slnil
  | cons b rest ih =>
      rw [sweep]
      split
      · exact (ih _).trans (List.sublist_cons_self b rest)
      · exact (ih live).cons_cons b

/-- Blocks go while there is too much: in the end there is not, or only those stay that had
    to. -/
theorem sweep_spec (drop : Nat → Block → Bool) (keep : Block → Bool) (high : Nat → Bool)
    (hdrop : ∀ live b, drop live b = (!keep b && high live))
    (hhigh : ∀ live live', high live = true → live ≤ live' → high live' = true) (live : Nat)
    (blocks : List Block) :
    high (sweepLive drop live blocks) = false ∨ sweep drop live blocks = blocks.filter keep := by
  induction blocks generalizing live with
  | nil => exact .inr rfl
  | cons b rest ih =>
      rw [sweepLive, sweep, hdrop]
      cases hkeep : keep b with
      | true =>
          rw [if_neg (by simp), if_neg (by simp), List.filter_cons_of_pos hkeep]
          exact (ih live).imp_right fun h => by rw [h]
      | false =>
          cases hcase : high live with
          | true =>
              rw [if_pos (by simp), if_pos (by simp), List.filter_cons_of_neg (by simp [hkeep])]
              exact ih _
          | false =>
              rw [if_neg (by simp)]
              refine .inl (Bool.eq_false_iff.mpr fun h => ?_)
              rw [hhigh _ _ h (sweepLive_le drop live rest)] at hcase
              cases hcase

/-! ### The scratch with its counter -/

/-- The options of no dispatch. -/
def ScratchOptions.none : ScratchOptions where
  pinning := .pinned
  minPinnedBytes := Option.none
  maxScratchBytes := 0

/-- `handed` is history: what the dispatch has been handed since the last `finish`. -/
structure Arena where
  blocks : List Block
  live : Nat
  retainedLimit : Nat
  liveLimit : Nat
  options : ScratchOptions
  failed : Bool
  requestPeak : Nat
  peakLiveBytes : Nat
  handed : List Nat
deriving DecidableEq, Repr

/-- What comes of a request that is sent to an allocator: an address or none, or the backend
    failed when idle blocks were freed, or there was no memory to keep the new block. -/
inductive Answer where
  | pointer (address : Nat)
  | refused
  | broken
  | exhausted
deriving DecidableEq, Repr

inductive Reply where
  | block (pointer : Nat)
  | limitExceeded
  | unavailable
  | thrown
deriving DecidableEq, Repr

namespace Arena

def backend (a : Arena) : ScratchBackend where
  blocks := a.blocks
  retainedLimit := a.retainedLimit
  liveLimit := a.liveLimit
  options := a.options
  failed := a.failed

def start (retained live : Nat) : Arena where
  blocks := []
  live := 0
  retainedLimit := retained
  liveLimit := live
  options := .none
  failed := false
  requestPeak := 0
  peakLiveBytes := 0
  handed := []

/-- `liveLimit`: the effective limit, zero for none. -/
def limit (a : Arena) : Nat := a.backend.limit

def busyBytes (a : Arena) : Nat := a.backend.busyBytes

/-- `begin`. -/
def enter (a : Arena) (options : ScratchOptions) : Arena :=
  let a := { a with options }
  let drop := fun live b => a.limit ≠ 0 && (a.limit < live && !b.busy)
  let live := sweepLive drop a.live a.blocks
  { a with blocks := sweep drop a.live a.blocks, live, requestPeak := live }

/-- Whether an idle block goes to make room for a capacity. -/
def evicts (a : Arena) (capacity live : Nat) (b : Block) : Bool :=
  !b.busy && (a.retainedLimit < capacity || a.retainedLimit - capacity < live ||
    a.backend.exceeds live capacity)

/-- The idle blocks that `allocate` drops before it grows. -/
def evict (a : Arena) (capacity : Nat) : Arena :=
  { a with
    blocks := sweep (a.evicts capacity) a.live a.blocks
    live := sweepLive (a.evicts capacity) a.live a.blocks }

/-- A new block. -/
def grow (a : Arena) (bytes pointer : Nat) (device pinned : Bool) : Arena :=
  { a with
    blocks := a.blocks ++ [{ pointer, bytes, device, pinned, busy := true, user := 0 }]
    live := a.live + bytes
    requestPeak := max a.requestPeak (a.live + bytes)
    peakLiveBytes := max a.peakLiveBytes (a.live + bytes) }

/-- The bytes that are asked of the allocator, once idle blocks were dropped. -/
def asked (a : Arena) (bytes : Nat) : Nat :=
  let capacity := a.backend.roundedCapacity bytes
  if a.backend.exceeds (a.evict capacity).live capacity then bytes else capacity

/-- Hand a busy block out, when its decision could be reported; else the call throws. -/
def handOut (a : Arena) (pointer : Nat) (noted : Bool) : Arena × Reply :=
  if noted then ({ a with handed := pointer :: a.handed }, .block pointer) else (a, .thrown)

/-- `allocate`; `noted` says that the staging decision could be reported. -/
def allocate (a : Arena) (bytes : Nat) (device : Bool) (answer : Answer) (noted : Bool) :
    Arena × Reply :=
  if a.failed then (a, .unavailable)
  else
    match a.backend.best bytes device a.blocks none with
    | some b =>
        { a with blocks := ScratchBackend.take 0 b.pointer a.blocks }.handOut b.pointer noted
    | none =>
        let room := a.evict (a.backend.roundedCapacity bytes)
        if a.backend.exceeds room.live bytes then ({ room with failed := true }, .limitExceeded)
        else
          match answer with
          | .exhausted => (room, .thrown)
          | .broken | .refused => ({ room with failed := true }, .unavailable)
          | .pointer address =>
              (room.grow (a.asked bytes) address device (a.backend.pinned bytes device)).handOut
                address noted

/-- `finish`: nothing is busy, what exceeds the retained bytes goes, and no options stay. -/
def finish (a : Arena) : Arena :=
  let idle := a.blocks.map fun b => { b with busy := false }
  let drop := fun live (_ : Block) => decide (a.retainedLimit < live)
  { a with blocks := sweep drop a.live idle, live := sweepLive drop a.live idle, options := .none,
           handed := [] }

/-- What an allocator may answer: a block apart from those that are held, inside the address
    space with them. -/
def Answers (a : Arena) (bytes : Nat) : Answer → Prop
  | .pointer address =>
      (∀ b ∈ (a.evict (a.backend.roundedCapacity bytes)).blocks, b.pointer ≠ address) ∧
        (a.evict (a.backend.roundedCapacity bytes)).live + a.asked bytes < 2 ^ 64
  | _ => True

instance (a : Arena) (bytes : Nat) (answer : Answer) : Decidable (a.Answers bytes answer) := by
  cases answer <;> (dsimp only [Answers]; infer_instance)

inductive Action where
  | enter (options : ScratchOptions)
  | allocate (bytes : Nat) (device : Bool) (answer : Answer) (noted : Bool)
  | free (pointer : Nat)
  | finish
deriving DecidableEq, Repr

/-- `freeDevice` and `freeStaging` do nothing. -/
def step (a : Arena) : Action → Option Arena
  | .enter options => some (a.enter options)
  | .allocate bytes device answer noted =>
      if a.Answers bytes answer then
        some (a.allocate bytes device answer noted).1
      else none
  | .free _ => some a
  | .finish => some a.finish

/-- The scratch of an engine with these limits. -/
def system (retained live : Nat) : System Arena Action where
  initial := fun a => a = .start retained live
  step := step

/-! ### What every sequence keeps -/

/-- The counter is what the blocks add up to; what was handed out is held and busy, once. -/
structure Sound (a : Arena) : Prop where
  counted : a.live = liveBytes a.blocks
  distinct : (a.blocks.map Block.pointer).Nodup
  held : ∀ pointer ∈ a.handed, ∃ b ∈ a.blocks, b.pointer = pointer ∧ b.busy = true
  once : a.handed.Nodup

variable {a t : Arena}

theorem Sound.swept (h : a.Sound) (drop : Nat → Block → Bool)
    (hkeep : ∀ live b, b.busy = true → drop live b = false) :
    sweepLive drop a.live a.blocks = liveBytes (sweep drop a.live a.blocks) ∧
      ((sweep drop a.live a.blocks).map Block.pointer).Nodup ∧
      ∀ pointer ∈ a.handed, ∃ b ∈ sweep drop a.live a.blocks,
        b.pointer = pointer ∧ b.busy = true := by
  constructor
  · have heq := sweepLive_eq drop 0 a.blocks
    rw [Nat.zero_add, Nat.zero_add, ← h.counted] at heq
    exact heq
  · constructor
    · exact ((sublist_sweep drop a.live a.blocks).map Block.pointer).nodup h.distinct
    · intro pointer hpointer
      obtain ⟨b, hb, heq, hbusy⟩ := h.held pointer hpointer
      exact ⟨b, mem_sweep hb fun live => hkeep live b hbusy, heq, hbusy⟩

theorem Sound.start (retained live : Nat) : (start retained live).Sound where
  counted := rfl
  distinct := List.nodup_nil
  held := fun _ h => absurd h List.not_mem_nil
  once := List.nodup_nil

theorem Sound.enter (h : a.Sound) (options : ScratchOptions) : (a.enter options).Sound := by
  have hoptions : ({ a with options } : Arena).Sound := ⟨h.counted, h.distinct, h.held, h.once⟩
  let drop : Nat → Block → Bool := fun live b =>
    ({ a with options } : Arena).limit ≠ 0 && (({ a with options } : Arena).limit < live && !b.busy)
  obtain ⟨hcounted, hdistinct, hheld⟩ := hoptions.swept drop fun live b hbusy => by
    simp [drop, hbusy]
  exact ⟨hcounted, hdistinct, hheld, h.once⟩

theorem Sound.evict (h : a.Sound) (capacity : Nat) : (a.evict capacity).Sound := by
  obtain ⟨hcounted, hdistinct, hheld⟩ :=
    h.swept (a.evicts capacity) fun live b hbusy => by simp [evicts, hbusy]
  exact ⟨hcounted, hdistinct, hheld, h.once⟩

/-- A block that is busy and was not handed out may be. -/
theorem Sound.handOut (h : a.Sound) {pointer : Nat} (hfresh : pointer ∉ a.handed)
    (hbusy : ∃ b ∈ a.blocks, b.pointer = pointer ∧ b.busy = true) (noted : Bool) :
    (a.handOut pointer noted).1.Sound := by
  unfold Arena.handOut
  split
  · refine ⟨h.counted, h.distinct, ?_, List.nodup_cons.mpr ⟨hfresh, h.once⟩⟩
    intro p hp
    rcases List.mem_cons.mp hp with heq | hmem
    · rw [heq]
      exact hbusy
    · exact h.held p hmem
  · exact h

theorem Sound.grow (h : a.Sound) {pointer : Nat} (hapart : ∀ b ∈ a.blocks, b.pointer ≠ pointer)
    (bytes : Nat) (device pinned : Bool) : (a.grow bytes pointer device pinned).Sound where
  counted := by
    have hnew : liveBytes [{ pointer, bytes, device, pinned, busy := true, user := 0 }] = bytes :=
      Nat.add_zero bytes
    rw [Arena.grow, liveBytes_append, hnew, h.counted]
  distinct := by
    rw [Arena.grow, List.map_append, List.nodup_append]
    refine ⟨h.distinct, List.nodup_singleton _, ?_⟩
    intro p hp q hq
    obtain ⟨b, hb, hpointer⟩ := List.mem_map.mp hp
    rw [List.mem_singleton.mp hq, ← hpointer]
    exact hapart b hb
  held := by
    intro p hp
    obtain ⟨b, hb, hpointer, hbusy⟩ := h.held p hp
    exact ⟨b, List.mem_append_left _ hb, hpointer, hbusy⟩
  once := h.once

/-- An idle block was not handed out. -/
theorem Sound.idle_not_handed (h : a.Sound) {b : Block} (hb : b ∈ a.blocks)
    (hidle : b.busy = false) : b.pointer ∉ a.handed := by
  intro hmem
  obtain ⟨d, hd, hpointer, hbusy⟩ := h.held b.pointer hmem
  have heq : d = b := List.inj_on_of_nodup_map h.distinct hd hb hpointer
  rw [heq, hidle] at hbusy
  cases hbusy

theorem Sound.take (h : a.Sound) (pointer : Nat) :
    ({ a with blocks := ScratchBackend.take 0 pointer a.blocks } : Arena).Sound := by
  have hbytes : ∀ b : Block, (if b.pointer = pointer ∧ b.busy = false then
      { b with busy := true, user := 0 } else b).bytes = b.bytes := fun b => by split <;> rfl
  have hpointer : ∀ b : Block, (if b.pointer = pointer ∧ b.busy = false then
      { b with busy := true, user := 0 } else b).pointer = b.pointer := fun b => by split <;> rfl
  refine ⟨?_, ?_, ?_, h.once⟩
  · rw [ScratchBackend.take, liveBytes_map _ hbytes]
    exact h.counted
  · rw [ScratchBackend.take, List.map_map]
    exact (List.map_congr_left fun b _ => hpointer b) ▸ h.distinct
  · intro p hp
    obtain ⟨b, hb, heq, hbusy⟩ := h.held p hp
    exact ⟨b, ScratchBackend.mem_take hb hbusy 0 pointer, heq, hbusy⟩

/-- The block that serves a request is an idle one. -/
theorem best_idle {bytes : Nat} {device : Bool} {b : Block}
    (hbest : a.backend.best bytes device a.blocks none = some b) :
    b ∈ a.blocks ∧ b.busy = false := by
  rcases ScratchBackend.best_spec hbest with hnone | ⟨hmem, hserves⟩
  · cases hnone
  · simp only [ScratchBackend.serves, Bool.and_eq_true, Bool.not_eq_true'] at hserves
    exact ⟨hmem, hserves.1.1.1.1⟩

/-- What an allocation comes to. -/
theorem allocate_cases {P : Arena × Reply → Prop} (a : Arena) (bytes : Nat) (device : Bool)
    (answer : Answer) (noted : Bool) (hfailed : P (a, .unavailable))
    (htake : ∀ b, a.backend.best bytes device a.blocks none = some b →
      P (({ a with blocks := ScratchBackend.take 0 b.pointer a.blocks } : Arena).handOut b.pointer
        noted))
    (hlimit : a.backend.exceeds (a.evict (a.backend.roundedCapacity bytes)).live bytes = true →
      P ({ a.evict (a.backend.roundedCapacity bytes) with failed := true }, .limitExceeded))
    (hrefused : P ({ a.evict (a.backend.roundedCapacity bytes) with failed := true }, .unavailable))
    (hthrown : P (a.evict (a.backend.roundedCapacity bytes), .thrown))
    (hgrow : ∀ address, answer = .pointer address →
      a.backend.exceeds (a.evict (a.backend.roundedCapacity bytes)).live bytes = false →
      P (((a.evict (a.backend.roundedCapacity bytes)).grow (a.asked bytes) address device
        (a.backend.pinned bytes device)).handOut address noted)) :
    P (a.allocate bytes device answer noted) := by
  unfold Arena.allocate
  split
  · exact hfailed
  · split
    · rename_i b hbest
      exact htake b hbest
    · dsimp only
      split
      · rename_i hexceeds
        exact hlimit hexceeds
      · rename_i hfits
        cases answer with
        | exhausted => exact hthrown
        | broken => exact hrefused
        | refused => exact hrefused
        | pointer address => exact hgrow address rfl (Bool.eq_false_iff.mpr hfits)

theorem handOut_block {c : Arena} {pointer p : Nat} {noted : Bool}
    (h : (c.handOut pointer noted).2 = .block p) :
    (c.handOut pointer noted).1.handed = p :: c.handed := by
  unfold Arena.handOut at h ⊢
  split at h
  · cases h
    rw [if_pos (by assumption)]
  · cases h

theorem handOut_not_limit (c : Arena) (pointer : Nat) (noted : Bool) :
    (c.handOut pointer noted).2 ≠ .limitExceeded := by
  unfold Arena.handOut
  split
  · simp
  · simp

theorem Sound.failed (h : a.Sound) : ({ a with failed := true } : Arena).Sound :=
  ⟨h.counted, h.distinct, h.held, h.once⟩

theorem Sound.allocate (h : a.Sound) {bytes : Nat} {answer : Answer}
    (hanswer : a.Answers bytes answer) (device noted : Bool) :
    (a.allocate bytes device answer noted).1.Sound := by
  have hroom := h.evict (a.backend.roundedCapacity bytes)
  refine allocate_cases (P := fun r => r.1.Sound) a bytes device answer noted h ?_
    (fun _ => hroom.failed) hroom.failed hroom ?_
  · intro b hbest
    obtain ⟨hb, hidle⟩ := best_idle hbest
    refine (h.take b.pointer).handOut (h.idle_not_handed hb hidle) ?_ noted
    exact ⟨{ b with busy := true, user := 0 }, List.mem_map.mpr ⟨b, hb, by simp [hidle]⟩, rfl, rfl⟩
  · intro address heq _
    rw [heq] at hanswer
    refine (hroom.grow hanswer.1 _ device _).handOut ?_ ?_ noted
    · intro hmem
      obtain ⟨b, hb, hpointer, _⟩ := hroom.held address hmem
      exact hanswer.1 b hb hpointer
    · exact ⟨_, List.mem_append_right _ (List.mem_singleton_self _), rfl, rfl⟩

theorem Sound.finish (h : a.Sound) : a.finish.Sound where
  counted := by
    have hidle : a.live = liveBytes (a.blocks.map fun b => { b with busy := false }) := by
      have hsame :
          liveBytes (a.blocks.map fun b => { b with busy := false }) = liveBytes a.blocks :=
        liveBytes_map (fun b => { b with busy := false }) (fun _ => rfl) a.blocks
      exact h.counted.trans hsame.symm
    have heq := sweepLive_eq (fun live _ => decide (a.retainedLimit < live)) 0
      (a.blocks.map fun b => { b with busy := false })
    rw [Nat.zero_add, Nat.zero_add, ← hidle] at heq
    exact heq
  distinct := by
    refine ((sublist_sweep _ a.live _).map Block.pointer).nodup ?_
    rw [List.map_map]
    exact h.distinct
  held := fun _ hmem => absurd hmem List.not_mem_nil
  once := List.nodup_nil

theorem Sound.step (h : a.Sound) {action : Action} (hstep : a.step action = some t) :
    t.Sound := by
  cases action with
  | enter options =>
      cases hstep
      exact h.enter options
  | allocate bytes device answer noted =>
      rw [Arena.step] at hstep
      split at hstep
      · rename_i hanswer
        cases hstep
        exact h.allocate hanswer device noted
      · cases hstep
  | free pointer =>
      cases hstep
      exact h
  | finish =>
      cases hstep
      exact h.finish

theorem sound_of_reachable {retained live : Nat} (h : (system retained live).Reachable a) :
    a.Sound := by
  refine System.Reachable.invariant ?_ ?_ h
  · intro s hs
    rw [hs]
    exact .start retained live
  · intro s action t hs hstep
    exact hs.step hstep

/-! ### The limits -/

theorem le_roundedCapacity (s : ScratchBackend) (bytes : Nat) :
    bytes ≤ s.roundedCapacity bytes := by
  unfold ScratchBackend.roundedCapacity
  split
  · dsimp only
    split
    · rw [ScratchBackend.scratchQuantum]
      omega
    · exact le_refl bytes
  · exact le_refl bytes

/-- The live bytes are within the limit, if there is one. -/
def Within (a : Arena) : Prop := a.limit ≠ 0 → a.live ≤ a.limit

theorem exceeds_eq_false {a : Arena} {live capacity : Nat} :
    a.backend.exceeds live capacity = false ↔ (a.limit ≠ 0 → live + capacity ≤ a.limit) := by
  unfold ScratchBackend.exceeds limit
  rw [decide_eq_false_iff_not]
  omega

theorem exceeds_eq_true {a : Arena} {live capacity : Nat} :
    a.backend.exceeds live capacity = true ↔ a.limit ≠ 0 ∧ a.limit < live + capacity := by
  unfold ScratchBackend.exceeds limit
  rw [decide_eq_true_iff]
  omega

theorem evict_live_le (a : Arena) (capacity : Nat) : (a.evict capacity).live ≤ a.live :=
  sweepLive_le _ _ _

/-- After idle blocks were dropped there is room for the capacity, or only busy blocks are left. -/
theorem Sound.evict_spec (h : a.Sound) (capacity : Nat) :
    (a.limit ≠ 0 → (a.evict capacity).live + capacity ≤ a.limit) ∨
      (a.evict capacity).live = a.busyBytes := by
  let high : Nat → Bool := fun live =>
    a.retainedLimit < capacity || a.retainedLimit - capacity < live ||
      a.backend.exceeds live capacity
  have hhigh : ∀ live live', high live = true → live ≤ live' → high live' = true := by
    intro live live' htrue hle
    simp only [high, Bool.or_eq_true, decide_eq_true_iff, exceeds_eq_true] at htrue ⊢
    omega
  rcases sweep_spec _ Block.busy high (fun live b => rfl) hhigh a.live a.blocks with hroom | hbusy
  · left
    simp only [high, Bool.or_eq_false_iff] at hroom
    exact exceeds_eq_false.mp hroom.2
  · right
    rw [(h.evict capacity).counted]
    exact congrArg liveBytes hbusy

/-- Only what is busy can be in the way of a request. -/
theorem Sound.refused (h : a.Sound) {bytes : Nat}
    (hexceeds : a.backend.exceeds (a.evict (a.backend.roundedCapacity bytes)).live bytes = true) :
    a.limit ≠ 0 ∧ a.limit < a.busyBytes + bytes := by
  obtain ⟨hlimit, hless⟩ := exceeds_eq_true.mp hexceeds
  constructor
  · exact hlimit
  · rcases h.evict_spec (a.backend.roundedCapacity bytes) with hroom | hbusy
    · have hfits := hroom hlimit
      have hle := le_roundedCapacity a.backend bytes
      omega
    · rw [← hbusy]
      exact hless

theorem Sound.limitExceeded (h : a.Sound) {bytes : Nat} {device noted : Bool} {answer : Answer} :
    (a.allocate bytes device answer noted).2 = .limitExceeded →
      a.limit ≠ 0 ∧ a.limit < a.busyBytes + bytes := by
  refine allocate_cases (P := fun r => r.2 = .limitExceeded → _) a bytes device answer noted ?_ ?_
    (fun hexceeds _ => h.refused hexceeds) ?_ ?_ ?_
  · intro hreply
    cases hreply
  · intro b _ hreply
    exact absurd hreply (handOut_not_limit _ _ _)
  · intro hreply
    cases hreply
  · intro hreply
    cases hreply
  · intro address _ _ hreply
    exact absurd hreply (handOut_not_limit _ _ _)

theorem Sound.finish_live_le (h : a.Sound) : a.finish.live ≤ a.retainedLimit := by
  have hcounted := h.finish.counted
  rcases sweep_spec _ (fun _ => false) (fun live => decide (a.retainedLimit < live))
    (fun live b => rfl)
    (fun live live' hless hle => by
      rw [decide_eq_true_iff] at hless ⊢
      exact hless.trans_le hle)
    a.live (a.blocks.map fun b => { b with busy := false }) with hroom | hnone
  · rw [decide_eq_false_iff_not, Nat.not_lt] at hroom
    exact hroom
  · rw [List.filter_eq_nil_iff.mpr (by simp)] at hnone
    rw [hcounted]
    exact (congrArg liveBytes hnone).trans_le (Nat.zero_le _)

/-- `begin` comes when no block is busy. -/
def Quiet (a : Arena) : Action → Prop
  | .enter _ => ∀ b ∈ a.blocks, b.busy = false
  | _ => True

theorem Within.enter (h : a.Sound) (hquiet : ∀ b ∈ a.blocks, b.busy = false)
    (options : ScratchOptions) : (a.enter options).Within := by
  intro hlimit
  have hcounted := (h.enter options).counted
  let c : Arena := { a with options }
  rcases sweep_spec (fun live b => c.limit ≠ 0 && (c.limit < live && !b.busy)) Block.busy
    (fun live => c.limit ≠ 0 && decide (c.limit < live))
    (fun live b => by cases b.busy <;> simp)
    (fun live live' hless hle => by
      simp only [Bool.and_eq_true, decide_eq_true_iff] at hless ⊢
      exact ⟨hless.1, hless.2.trans_le hle⟩)
    a.live a.blocks with hroom | hnone
  · rw [Bool.and_eq_false_iff, decide_eq_false_iff_not, decide_eq_false_iff_not] at hroom
    rcases hroom with hzero | hle
    · exact absurd hlimit hzero
    · exact Nat.not_lt.mp hle
  · rw [List.filter_eq_nil_iff.mpr fun b hb => by simp [hquiet b hb]] at hnone
    rw [hcounted]
    exact (congrArg liveBytes hnone).trans_le (Nat.zero_le _)

theorem limit_le_liveLimit (a : Arena) (h : a.liveLimit ≠ 0) : a.limit ≤ a.liveLimit := by
  unfold limit ScratchBackend.limit
  split
  · exact le_refl a.liveLimit
  · rw [if_neg (show ¬a.backend.liveLimit = 0 from h)]
    exact Nat.min_le_left _ _

theorem limit_ne_zero (a : Arena) (h : a.liveLimit ≠ 0) : a.limit ≠ 0 := by
  unfold limit ScratchBackend.limit
  split
  · exact h
  · rw [if_neg (show ¬a.backend.liveLimit = 0 from h)]
    rename_i hmax
    exact Nat.ne_of_gt (Nat.lt_min.mpr ⟨Nat.pos_of_ne_zero h, Nat.pos_of_ne_zero hmax⟩)

theorem Within.finish (h : a.Within) : a.finish.Within := by
  intro hlimit
  have hlive : a.finish.live ≤ a.live := sweepLive_le _ _ _
  have hafter : a.finish.limit = a.liveLimit := rfl
  rw [hafter] at hlimit ⊢
  exact hlive.trans ((h (a.limit_ne_zero hlimit)).trans (a.limit_le_liveLimit hlimit))

theorem Within.handOut (h : a.Within) (pointer : Nat) (noted : Bool) :
    (a.handOut pointer noted).1.Within := by
  unfold Arena.handOut
  split
  · exact h
  · exact h

/-- The rounded capacity is asked for only where it fits. -/
theorem Within.grow {bytes : Nat} {device : Bool}
    (hfits : a.backend.exceeds (a.evict (a.backend.roundedCapacity bytes)).live bytes = false)
    (pointer : Nat) (pinned : Bool) :
    ((a.evict (a.backend.roundedCapacity bytes)).grow (a.asked bytes) pointer device
      pinned).Within := by
  have hasked : a.backend.exceeds (a.evict (a.backend.roundedCapacity bytes)).live (a.asked bytes) =
      false := by
    unfold asked
    dsimp only
    split
    · exact hfits
    · rename_i hroom
      exact Bool.eq_false_iff.mpr hroom
  exact exceeds_eq_false.mp hasked

theorem Within.allocate (h : a.Within) (bytes : Nat) (device : Bool) (answer : Answer)
    (noted : Bool) : (a.allocate bytes device answer noted).1.Within := by
  have hroom : (a.evict (a.backend.roundedCapacity bytes)).Within :=
    fun hlimit => (evict_live_le a _).trans (h hlimit)
  refine allocate_cases (P := fun r => r.1.Within) a bytes device answer noted h ?_
    (fun _ => hroom) hroom hroom ?_
  · intro b _
    have htaken : ({ a with blocks := ScratchBackend.take 0 b.pointer a.blocks } : Arena).Within :=
      h
    exact htaken.handOut _ noted
  · intro address _ hfits
    exact (Within.grow hfits address _).handOut address noted

theorem Within.step (hsound : a.Sound) (h : a.Within) {action : Action} (hquiet : a.Quiet action)
    (hstep : a.step action = some t) : t.Within := by
  cases action with
  | enter options =>
      cases hstep
      exact Within.enter hsound hquiet options
  | allocate bytes device answer noted =>
      rw [Arena.step] at hstep
      split at hstep
      · cases hstep
        exact h.allocate bytes device answer noted
      · cases hstep
  | free pointer =>
      cases hstep
      exact h
  | finish =>
      cases hstep
      exact h.finish

theorem within_of_run {retained live : Nat} (h : (system retained live).Run Quiet a) :
    a.Within := by
  refine System.Run.invariant_with (J := Sound) (fun s hs => sound_of_reachable hs) ?_ ?_ h
  · intro s hs
    rw [hs]
    exact fun _ => Nat.zero_le _
  · intro s action t hsound _ hwithin hquiet hstep
    exact hwithin.step hsound hquiet hstep

/-- What is handed out is out from then on. -/
theorem handed_allocate {bytes pointer : Nat} {device noted : Bool} {answer : Answer} :
    (a.allocate bytes device answer noted).2 = .block pointer →
      (a.allocate bytes device answer noted).1.handed = pointer :: a.handed := by
  refine allocate_cases (P := fun r => r.2 = .block pointer → r.1.handed = pointer :: a.handed) a
    bytes device answer noted ?_ (fun b _ => handOut_block) ?_ ?_ ?_ (fun _ _ _ => handOut_block)
  · intro hreply
    cases hreply
  · intro _ hreply
    cases hreply
  · intro hreply
    cases hreply
  · intro hreply
    cases hreply

theorem mem_handed_handOut {c : Arena} {p : Nat} (h : p ∈ c.handed) (pointer : Nat)
    (noted : Bool) : p ∈ (c.handOut pointer noted).1.handed := by
  unfold Arena.handOut
  split
  · exact List.mem_cons_of_mem pointer h
  · exact h

/-- Nothing but `finish` takes back what was handed out. -/
theorem mem_handed_step {action : Action} {p : Nat} (hstep : a.step action = some t)
    (haction : action ≠ .finish) (h : p ∈ a.handed) : p ∈ t.handed := by
  cases action with
  | enter options =>
      cases hstep
      exact h
  | allocate bytes device answer noted =>
      rw [Arena.step] at hstep
      split at hstep
      · cases hstep
        exact allocate_cases (P := fun r => p ∈ r.1.handed) a bytes device answer noted h
          (fun b _ => mem_handed_handOut (by exact h) b.pointer noted) (fun _ => h) h h
          (fun address _ _ => mem_handed_handOut (by exact h) address noted)
      · cases hstep
  | free pointer =>
      cases hstep
      exact h
  | finish => exact absurd rfl haction

/-! ### Main results -/

/-- Every sequence keeps the accounts, hands a block out once and holds it to the end of the
    dispatch, and refuses for the limit only what does not fit beside the busy blocks; the
    limit is kept where `begin` finds no block busy. -/
theorem accounts (retained live : Nat) :
    (∀ a, (system retained live).Reachable a →
      a.live = liveBytes a.blocks ∧ a.handed.Nodup ∧
      (∀ pointer ∈ a.handed, ∃ b ∈ a.blocks, b.pointer = pointer ∧ b.busy = true) ∧
      (∀ action t, a.step action = some t → action ≠ .finish →
        ∀ pointer ∈ a.handed, pointer ∈ t.handed) ∧
      (∀ bytes device answer noted pointer, a.Answers bytes answer →
        (a.allocate bytes device answer noted).2 = .block pointer →
        pointer ∉ a.handed ∧ pointer ∈ (a.allocate bytes device answer noted).1.handed) ∧
      a.finish.live ≤ a.retainedLimit ∧
      ∀ bytes device answer noted, (a.allocate bytes device answer noted).2 = .limitExceeded →
        a.limit ≠ 0 ∧ a.limit < a.busyBytes + bytes) ∧
    ∀ a, (system retained live).Run Quiet a → a.limit ≠ 0 → a.live ≤ a.limit := by
  constructor
  · intro a hreach
    have h := sound_of_reachable hreach
    refine ⟨h.counted, h.once, h.held, ?_, ?_, h.finish_live_le, ?_⟩
    · intro action t hstep haction pointer hpointer
      exact mem_handed_step hstep haction hpointer
    · intro bytes device answer noted pointer hanswer hreply
      have hhanded := handed_allocate hreply
      have honce := (h.allocate hanswer device noted).once
      rw [hhanded] at honce ⊢
      exact ⟨(List.nodup_cons.mp honce).1, List.mem_cons_self⟩
    · intro bytes device answer noted hreply
      exact h.limitExceeded hreply
  · intro a hrun
    exact within_of_run hrun

instance (a : Arena) (action : Action) : Decidable (a.Quiet action) := by
  cases action <;> (dsimp only [Quiet]; infer_instance)

/-- Two dispatches under a limit of 256 bytes.  The second one takes the first block of the
    other again, and drops the second to make room for a larger one. -/
def reuseAndEvict : List Action :=
  let options : ScratchOptions := { ScratchOptions.none with maxScratchBytes := 256 }
  [.enter options, .allocate 100 true (.pointer 1) true, .allocate 100 true (.pointer 2) true,
    .finish, .enter options, .allocate 80 true .refused true, .allocate 150 true (.pointer 3) true]

theorem accounts_reuseAndEvict :
    ∃ a, (system 4096 0).perform reuseAndEvict (.start 4096 0) = some a ∧
      a.blocks.map Block.pointer = [1, 3] ∧ a.handed = [3, 1] ∧ a.live = liveBytes a.blocks ∧
      (∀ pointer ∈ a.handed, ∃ b ∈ a.blocks, b.pointer = pointer ∧ b.busy = true) ∧
      a.live ≤ a.limit := by
  obtain ⟨haccounts, hwithin⟩ := accounts 4096 0
  have hperform : ∃ a, ((system 4096 0).guarded fun a action => decide (a.Quiet action)).perform
      reuseAndEvict (.start 4096 0) = some a ∧
      (system 4096 0).perform reuseAndEvict (.start 4096 0) = some a ∧
      a.blocks.map Block.pointer = [1, 3] ∧ a.handed = [3, 1] ∧ a.limit ≠ 0 := by
    decide +kernel
  obtain ⟨a, hguarded, hrun, hblocks, hhanded, hlimit⟩ := hperform
  obtain ⟨hcounted, -, hheld, -⟩ := haccounts a (System.reachable_of_perform rfl hrun)
  have hquiet : (system 4096 0).Run Quiet a :=
    System.run_of_guarded (fun _ _ => of_decide_eq_true) (.start rfl) hguarded
  exact ⟨a, hrun, hblocks, hhanded, hcounted, hheld, hwithin a hquiet hlimit⟩

/-- A dispatch of a smaller limit begins while a block is busy. -/
theorem limit_lowered : ∃ a, (system 0 0).Reachable a ∧ a.limit ≠ 0 ∧ a.limit < a.live := by
  let actions : List Action := [.enter .none, .allocate 100 true (.pointer 1) true,
    .enter { ScratchOptions.none with maxScratchBytes := 10 }]
  have hperform : ∃ a, (system 0 0).perform actions (.start 0 0) = some a ∧
      a.limit ≠ 0 ∧ a.limit < a.live := by
    decide
  obtain ⟨a, ha, hlimit⟩ := hperform
  exact ⟨a, System.reachable_of_perform rfl ha, hlimit⟩

end Arena

end SymReloc.Dispatch
