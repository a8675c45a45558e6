import SymReloc.Outcome
import Mathlib.Data.List.Basic
import Mathlib.Data.List.Forall2
import Mathlib.Tactic.Ring

/-!
# Readers over a byte buffer

A reader takes a buffer and an offset and either returns a value and a new
offset, reports an error, or faults.  Reading outside the buffer and reserving
more room than the buffer has bytes are faults, so safety is a theorem about a
reader and not a property of the model.

Two relations describe a reader.  `Parses size p post` says that on every buffer
of `size` bytes `p` does not fault, and that whatever it returns was read from a
chunk of consecutive bytes related to the value by `post`.  `Accepts p bytes
post` says that wherever `bytes` stands in a buffer, `p` reads exactly it.
`Codes p wf write` combines the two for a reader that inverts a writer.
-/

namespace SymReloc

/-! ### Little-endian words -/

/-- The value of bytes, least significant first. -/
def leNat : List UInt8 → Nat
  | [] => 0
  | byte :: bytes => byte.toNat + 256 * leNat bytes

/-- The `width` low bytes of a value, least significant first. -/
def leBytes : Nat → Nat → List UInt8
  | 0, _ => []
  | width + 1, value => UInt8.ofNat value :: leBytes width (value / 256)

@[simp] theorem length_leBytes (width value : Nat) : (leBytes width value).length = width := by
  induction width generalizing value with
  | zero => rfl
  | succ width ih => simp only [leBytes, List.length_cons, ih]

theorem leNat_lt (bytes : List UInt8) : leNat bytes < 256 ^ bytes.length := by
  induction bytes with
  | nil => simp only [leNat, List.length_nil, pow_zero, Nat.lt_one_iff]
  | cons byte bytes ih =>
      have hbyte : byte.toNat < 256 := byte.toNat_lt
      simp only [leNat, List.length_cons, pow_succ]
      omega

theorem leNat_leBytes {width value : Nat} (h : value < 256 ^ width) :
    leNat (leBytes width value) = value := by
  induction width generalizing value with
  | zero => simp only [pow_zero, Nat.lt_one_iff] at h; subst h; rfl
  | succ width ih =>
      have hdiv : value / 256 < 256 ^ width := by
        rw [pow_succ] at h
        omega
      simp only [leBytes, leNat, ih hdiv, UInt8.toNat_ofNat']
      omega

theorem leBytes_leNat (bytes : List UInt8) : leBytes bytes.length (leNat bytes) = bytes := by
  induction bytes with
  | nil => rfl
  | cons byte bytes ih =>
      have hbyte : byte.toNat < 256 := byte.toNat_lt
      have hdiv : (byte.toNat + 256 * leNat bytes) / 256 = leNat bytes := by omega
      have hmod : UInt8.ofNat (byte.toNat + 256 * leNat bytes) = byte := by
        apply UInt8.toNat_inj.mp
        rw [UInt8.toNat_ofNat']
        omega
      simp only [List.length_cons, leNat, leBytes, hdiv, hmod, ih]

/-! ### Readers -/

/-- A reader takes the buffer and the offset to read from. -/
def Reader (ε α : Type) := List UInt8 → Nat → Outcome ε (α × Nat)

namespace Reader

variable {ε α β γ : Type}

instance : Monad (Reader ε) where
  pure value := fun _ at' => .ok (value, at')
  bind run next := fun data at' => run data at' >>= fun result => next result.1 data result.2

theorem pure_apply (value : α) (data : List UInt8) (at' : Nat) :
    (pure value : Reader ε α) data at' = .ok (value, at') := rfl

theorem bind_apply (p : Reader ε α) (next : α → Reader ε β) (data : List UInt8) (at' : Nat) :
    (p >>= next) data at' = p data at' >>= fun result => next result.1 data result.2 := rfl

/-- The current offset. -/
def offset : Reader ε Nat := fun _ at' => .ok (at', at')

/-- The number of bytes left. -/
def remaining : Reader ε Nat := fun data at' => .ok (data.length - at', at')

/-- Report an error. -/
def fail (reason : ε) : Reader ε α := fun _ _ => .error reason

/-- Read the next `count` bytes without looking at how many are left. -/
def takeBytes (count : Nat) : Reader ε (List UInt8) := fun data at' =>
  if at' + count ≤ data.length then .ok ((data.drop at').take count, at' + count)
  else .fault .outOfBounds

/-- Reserve room for `count` elements. -/
def reserve (count : Nat) : Reader ε Unit := fun data at' =>
  if count ≤ data.length then .ok ((), at') else .fault .overReserve

/-- Read a value together with the offset where it begins. -/
def located (p : Reader ε α) : Reader ε (Nat × α) := do
  let position ← offset
  let value ← p
  pure (position, value)

/-- Run a reader a given number of times. -/
def repeatRead (p : Reader ε α) : Nat → Reader ε (List α)
  | 0 => pure []
  | count + 1 => do
      let value ← p
      let values ← repeatRead p count
      pure (value :: values)

/-! ### Soundness: what a successful run has read -/

/-- On a buffer of `size` bytes the reader does not fault, and a value it returns
    is related by `post` to the chunk it consumed. -/
def Parses (size : Nat) (p : Reader ε α) (post : List UInt8 → α → Prop) : Prop :=
  ∀ (data : List UInt8) (at' : Nat), data.length = size → at' ≤ size →
    (p data at').Sat fun result => ∃ bytes rest, data.drop at' = bytes ++ rest ∧
      result.2 = at' + bytes.length ∧ post bytes result.1

theorem Parses.mono {size : Nat} {p : Reader ε α} {post post' : List UInt8 → α → Prop}
    (h : Parses size p post)
    (himp : ∀ bytes value, bytes.length ≤ size → post bytes value → post' bytes value) :
    Parses size p post' := by
  intro data at' hdata hat
  refine (h data at' hdata hat).mono ?_
  rintro ⟨value, next⟩ ⟨bytes, rest, hdrop, hnext, hpost⟩
  have hlength := congrArg List.length hdrop
  rw [List.length_drop, List.length_append] at hlength
  exact ⟨bytes, rest, hdrop, hnext, himp bytes value (by omega) hpost⟩

theorem parses_pure {size : Nat} {post : List UInt8 → α → Prop} {value : α}
    (h : post [] value) : Parses size (pure value : Reader ε α) post := by
  intro data at' _ _
  exact ⟨[], data.drop at', rfl, rfl, h⟩

theorem parses_fail {size : Nat} {post : List UInt8 → α → Prop} (reason : ε) :
    Parses size (fail reason : Reader ε α) post := fun _ _ _ _ => trivial

/-- Sequencing: the chunks of the two readers follow each other. -/
theorem Parses.bind {size : Nat} {p : Reader ε α} {next : α → Reader ε β}
    {post : List UInt8 → α → Prop} {post' : List UInt8 → β → Prop} (h : Parses size p post)
    (hnext : ∀ bytes value, bytes.length ≤ size → post bytes value →
      Parses size (next value) fun bytes' result => post' (bytes ++ bytes') result) :
    Parses size (p >>= next) post' := by
  intro data at' hdata hat
  refine Outcome.sat_bind.mpr ((h data at' hdata hat).mono ?_)
  rintro ⟨value, middle⟩ ⟨bytes, rest, hdrop, rfl, hpost⟩
  have hlength := congrArg List.length hdrop
  rw [List.length_drop, List.length_append] at hlength
  refine (hnext bytes value (by omega) hpost data (at' + bytes.length) hdata (by omega)).mono ?_
  rintro ⟨result, last⟩ ⟨bytes', rest', hdrop', hlast, hpost'⟩
  refine ⟨bytes ++ bytes', rest', ?_, ?_, hpost'⟩
  · have hrest : rest = bytes' ++ rest' := by
      rw [← hdrop', ← List.drop_drop, hdrop, List.drop_left]
    rw [hdrop, hrest, List.append_assoc]
  · simp only [List.length_append] at hlast ⊢
    omega

/-- The last step of a reader may rearrange what was read. -/
theorem Parses.bind_pure {size : Nat} {p : Reader ε α} {f : α → β}
    {post : List UInt8 → α → Prop} {post' : List UInt8 → β → Prop} (h : Parses size p post)
    (himp : ∀ bytes value, post bytes value → post' bytes (f value)) :
    Parses size (p >>= fun value => pure (f value)) post' :=
  h.bind fun bytes value _ hpost => parses_pure (by
    rw [List.append_nil]
    exact himp bytes value hpost)

theorem parses_offset_bind {size : Nat} {next : Nat → Reader ε β}
    {post : List UInt8 → β → Prop} (h : ∀ at', Parses size (next at') post) :
    Parses size (offset >>= next) post :=
  fun data at' hdata hat => h at' data at' hdata hat

theorem parses_remaining_bind {size : Nat} {next : Nat → Reader ε β}
    {post : List UInt8 → β → Prop} (h : ∀ left, Parses size (next left) post) :
    Parses size (remaining >>= next) post :=
  fun data at' hdata hat => h _ data at' hdata hat

theorem parses_reserve {size count : Nat} (h : count ≤ size) :
    Parses size (reserve count : Reader ε Unit) fun bytes _ => bytes = [] := by
  intro data at' hdata _
  rw [reserve, if_pos (by omega)]
  exact ⟨[], data.drop at', rfl, rfl, rfl⟩

theorem parses_ite {size : Nat} {c : Prop} [Decidable c] {left right : Reader ε α}
    {post : List UInt8 → α → Prop} (hleft : c → Parses size left post)
    (hright : ¬ c → Parses size right post) :
    Parses size (if c then left else right) post := by
  split
  · exact hleft ‹_›
  · exact hright ‹_›

/-- A guard in front of the rest of a reader. -/
theorem Parses.guard {size : Nat} {c : Prop} [Decidable c] {reason : ε} {next : Reader ε α}
    {post : List UInt8 → α → Prop} (h : ¬ c → Parses size next post) :
    Parses size (if c then fail reason else next) post :=
  parses_ite (fun _ => parses_fail reason) h

/-- A repetition reads one chunk for each value. -/
theorem parses_repeatRead {size : Nat} {p : Reader ε α} {wf : α → Prop}
    {write : α → List UInt8} (h : Parses size p fun bytes value => bytes = write value ∧ wf value)
    (count : Nat) :
    Parses size (repeatRead p count) fun bytes values =>
      bytes = values.flatMap write ∧ (∀ value ∈ values, wf value) ∧ values.length = count := by
  induction count with
  | zero => exact parses_pure ⟨rfl, by simp, rfl⟩
  | succ count ih =>
      refine h.bind fun bytes value _ hvalue => ih.bind fun bytes' values _ hvalues => ?_
      obtain ⟨rfl, hwf⟩ := hvalue
      obtain ⟨rfl, hall, hcount⟩ := hvalues
      refine parses_pure ⟨by simp, ?_, by simp [hcount]⟩
      rintro x (_ | ⟨_, hx⟩)
      · exact hwf
      · exact hall x hx

/-! ### Completeness: bytes a reader accepts -/

/-- Wherever the bytes stand in a buffer, the reader consumes exactly them. -/
def Accepts (p : Reader ε α) (bytes : List UInt8) (post : α → Prop) : Prop :=
  ∀ before after : List UInt8, ∃ value, post value ∧
    p (before ++ bytes ++ after) before.length = .ok (value, before.length + bytes.length)

theorem accepts_pure {post : α → Prop} {value : α} (h : post value) :
    Accepts (pure value : Reader ε α) [] post := fun _ _ => ⟨value, h, rfl⟩

theorem Accepts.bind {p : Reader ε α} {next : α → Reader ε β} {bytes bytes' : List UInt8}
    {post : α → Prop} {post' : β → Prop} (h : Accepts p bytes post)
    (hnext : ∀ value, post value → Accepts (next value) bytes' post') :
    Accepts (p >>= next) (bytes ++ bytes') post' := by
  intro before after
  obtain ⟨value, hvalue, hrun⟩ := h before (bytes' ++ after)
  obtain ⟨result, hresult, hrun'⟩ := hnext value hvalue (before ++ bytes) after
  refine ⟨result, hresult, ?_⟩
  have hdata : before ++ (bytes ++ bytes') ++ after = before ++ bytes ++ (bytes' ++ after) := by
    simp only [List.append_assoc]
  have hdata' : before ++ bytes ++ bytes' ++ after = before ++ bytes ++ (bytes' ++ after) := by
    simp only [List.append_assoc]
  rw [hdata', List.length_append] at hrun'
  rw [bind_apply, hdata, hrun, Outcome.ok_bind, hrun', List.length_append, Nat.add_assoc]

theorem Accepts.mono {p : Reader ε α} {bytes : List UInt8} {post post' : α → Prop}
    (h : Accepts p bytes post) (himp : ∀ value, post value → post' value) :
    Accepts p bytes post' := by
  intro before after
  obtain ⟨value, hvalue, hrun⟩ := h before after
  exact ⟨value, himp value hvalue, hrun⟩

/-- The last step of a reader may rearrange what was read. -/
theorem Accepts.bind_pure {p : Reader ε α} {f : α → β} {bytes : List UInt8} {post : α → Prop}
    {post' : β → Prop} (h : Accepts p bytes post) (himp : ∀ value, post value → post' (f value)) :
    Accepts (p >>= fun value => pure (f value)) bytes post' := by
  rw [← List.append_nil bytes]
  exact h.bind fun value hvalue => accepts_pure (himp value hvalue)

theorem accepts_offset_bind {next : Nat → Reader ε β} {bytes : List UInt8} {post : β → Prop}
    (h : ∀ at', Accepts (next at') bytes post) : Accepts (offset >>= next) bytes post :=
  fun before after => h before.length before after

/-- At least the bytes about to be read are left. -/
theorem accepts_remaining_bind {next : Nat → Reader ε β} {bytes : List UInt8} {post : β → Prop}
    (h : ∀ left, bytes.length ≤ left → Accepts (next left) bytes post) :
    Accepts (remaining >>= next) bytes post := by
  intro before after
  exact h _ (by simp only [List.length_append]; omega) before after

theorem accepts_reserve_bind {next : Unit → Reader ε β} {bytes : List UInt8} {post : β → Prop}
    {count : Nat} (hcount : count ≤ bytes.length) (h : Accepts (next ()) bytes post) :
    Accepts (reserve count >>= next) bytes post := by
  intro before after
  obtain ⟨value, hvalue, hrun⟩ := h before after
  refine ⟨value, hvalue, ?_⟩
  rw [bind_apply, reserve, if_pos (by simp only [List.length_append]; omega), Outcome.ok_bind]
  exact hrun

theorem Accepts.guard {c : Prop} [Decidable c] {refuse next : Reader ε α}
    {bytes : List UInt8} {post : α → Prop} (hc : ¬ c) (h : Accepts next bytes post) :
    Accepts (if c then refuse else next) bytes post := by
  rw [if_neg hc]
  exact h

theorem accepts_takeBytes (bytes : List UInt8) :
    Accepts (takeBytes bytes.length : Reader ε (List UInt8)) bytes (· = bytes) := by
  intro before after
  refine ⟨bytes, rfl, ?_⟩
  rw [takeBytes, if_pos (by simp only [List.length_append]; omega), List.append_assoc,
    List.drop_left, List.take_left]

/-- A repetition accepts the concatenation of what its reader accepts. -/
theorem accepts_repeatRead {p : Reader ε α} {post : α → β → Prop} {write : β → List UInt8}
    {inputs : List β}
    (h : ∀ input ∈ inputs, Accepts p (write input) fun value => post value input) :
    Accepts (repeatRead p inputs.length) (inputs.flatMap write) fun values =>
      List.Forall₂ post values inputs := by
  induction inputs with
  | nil => exact accepts_pure .nil
  | cons input inputs ih =>
      rw [List.flatMap_cons]
      refine (h input (by simp)).bind fun value hvalue => ?_
      rw [← List.append_nil (inputs.flatMap write)]
      exact (ih fun x hx => h x (by simp [hx])).bind fun values hvalues =>
        accepts_pure (.cons hvalue hvalues)

/-! ### A reader that inverts a writer -/

/-- The reader returns exactly the values satisfying `wf`, each from the bytes
    the writer gives it. -/
structure Codes (p : Reader ε α) (wf : α → Prop) (write : α → List UInt8) : Prop where
  sound : ∀ size, Parses size p fun bytes value => bytes = write value ∧ wf value
  complete : ∀ value, wf value → Accepts p (write value) (· = value)

/-- A reader that inverts a writer up to data the bytes do not hold, such as the
    offsets it passed: `view` forgets them. -/
structure CodesVia (view : α → β) (p : Reader ε α) (wf : β → Prop) (write : β → List UInt8) :
    Prop where
  sound : ∀ size, Parses size p fun bytes value => bytes = write (view value) ∧ wf (view value)
  complete : ∀ value, wf value → Accepts p (write value) (view · = value)

theorem Codes.via {p : Reader ε α} {wf : α → Prop} {write : α → List UInt8}
    (h : Codes p wf write) : CodesVia (fun value => value) p wf write := ⟨h.sound, h.complete⟩

theorem Codes.located {p : Reader ε α} {wf : α → Prop} {write : α → List UInt8}
    (h : Codes p wf write) : CodesVia Prod.snd (Reader.located p) wf write where
  sound size := parses_offset_bind fun _ => (h.sound size).bind_pure fun _ _ hpost => hpost
  complete value hvalue := accepts_offset_bind fun _ =>
    (h.complete value hvalue).bind_pure fun _ hpost => hpost

/-- The inverse reader of a repetition. -/
theorem CodesVia.repeatRead {view : α → β} {p : Reader ε α} {wf : β → Prop}
    {write : β → List UInt8} (h : CodesVia view p wf write) (count : Nat) :
    CodesVia (List.map view) (Reader.repeatRead p count)
      (fun values => values.length = count ∧ ∀ value ∈ values, wf value)
      (fun values => values.flatMap write) where
  sound size := (parses_repeatRead (h.sound size) count).mono fun bytes values _ hpost => by
    obtain ⟨rfl, hall, rfl⟩ := hpost
    exact ⟨by rw [List.flatMap_map], List.length_map _, by simpa using hall⟩
  complete := by
    rintro values ⟨rfl, hall⟩
    have hreads : ∀ input ∈ values, Accepts p (write input) fun value => view value = input :=
      fun input hinput => h.complete input (hall input hinput)
    refine (accepts_repeatRead hreads).mono fun result hresult => ?_
    rw [← List.forall₂_eq_eq_eq, List.forall₂_map_left_iff]
    exact hresult

theorem Codes.repeatRead {p : Reader ε α} {wf : α → Prop} {write : α → List UInt8}
    (h : Codes p wf write) (count : Nat) :
    Codes (Reader.repeatRead p count)
      (fun values => values.length = count ∧ ∀ value ∈ values, wf value)
      (fun values => values.flatMap write) where
  sound size := ((h.via.repeatRead count).sound size).mono fun _ values _ hpost => by
    rwa [List.map_id'] at hpost
  complete values hvalues := ((h.via.repeatRead count).complete values hvalues).mono
    fun result hresult => by rwa [List.map_id'] at hresult

/-- Each value is written in at least one byte, so a list needs as many bytes as
    it has values. -/
theorem length_le_length_flatMap {write : α → List UInt8} {values : List α}
    (h : ∀ value ∈ values, 1 ≤ (write value).length) :
    values.length ≤ (values.flatMap write).length := by
  induction values with
  | nil => exact Nat.zero_le _
  | cons value values ih =>
      have hvalue := h value (by simp)
      have hvalues := ih fun x hx => h x (by simp [hx])
      simp only [List.length_cons, List.flatMap_cons, List.length_append]
      omega

end Reader

/-! ### Enumerations -/

/-- An enumeration with the byte of each of its values. -/
structure ByteTable (α : Type) where
  toByte : α → UInt8
  ofByte? : UInt8 → Option α
  ofByte?_toByte : ∀ value, ofByte? (toByte value) = some value
  toByte_of_ofByte? : ∀ byte value, ofByte? byte = some value → toByte value = byte

/-- A flag is the byte 0 or 1. -/
def ByteTable.flag : ByteTable Bool where
  toByte
    | false => 0
    | true => 1
  ofByte?
    | 0 => some false
    | 1 => some true
    | _ => none
  ofByte?_toByte value := by cases value <;> rfl
  toByte_of_ofByte? byte value h := by split at h <;> cases h <;> rfl

end SymReloc
