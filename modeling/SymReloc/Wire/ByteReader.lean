import SymReloc.Wire.Plan

/-!
# The bounds-checked byte reader

`ByteReader` reads little-endian words, counts and strings; every read checks
how many bytes are left and reports an error at the offset where it began.
Each read inverts a writer (`codes_…`).  A count is special: it is accepted only
when that many bytes follow, so it has rules of its own, and the rule for a
counted vector is derived from them.
-/

namespace SymReloc

/-- `DecodeError`: the offset of the violated item and the message. -/
structure DecodeError where
  offset : Nat
  message : String
deriving DecidableEq, Repr

namespace ByteReader

open Reader

/-- The readers of the decoder. -/
abbrev Read (α : Type) := Reader DecodeError α

/-- `ByteReader::fail`. -/
abbrev failAt {α : Type} (position : Nat) (message : String) : Read α :=
  Reader.fail ⟨position, message⟩

/-- `ByteReader::failHere`. -/
def failHere {α : Type} (message : String) : Read α := do
  let position ← offset
  failAt position message

/-- Read a fixed number of bytes if that many are left. -/
def readFixed (count : Nat) (message : String) : Read (List UInt8) := do
  let left ← remaining
  if left < count then failHere message else takeBytes count

def readU8 : Read UInt8 := do
  let bytes ← readFixed 1 "truncated: expected u8"
  pure (UInt8.ofNat (leNat bytes))

def readU32 : Read Nat := do
  let bytes ← readFixed 4 "truncated: expected u32"
  pure (leNat bytes)

def readU64 : Read Nat := do
  let bytes ← readFixed 8 "truncated: expected u64"
  pure (leNat bytes)

/-- The 64 bits read as two's complement. -/
def readI64 : Read Int := do
  let raw ← readU64
  pure (wrap64 raw)

/-- A count that gates an allocation must not exceed the remaining bytes. -/
def readCount (what : String) : Read Nat := do
  let position ← offset
  let count ← readU32
  let left ← remaining
  if count > left then failAt position ("count exceeds remaining bytes: " ++ what)
  else pure count

def readString : Read Name := do
  let length ← readCount "string length"
  takeBytes length

/-- A byte that names a value of an enumeration. -/
def readEnum {α : Type} (table : ByteTable α) (message : String) : Read α := do
  let position ← offset
  let byte ← readU8
  match table.ofByte? byte with
  | some value => pure value
  | none => failAt position message

/-- The loop behind every counted section: room for the elements, then one after
    the other. -/
def readElements {α : Type} (element : Read α) (count : Nat) : Read (List α) := do
  reserve count
  repeatRead element count

/-- A counted section. -/
def readVector {α : Type} (what : String) (element : Read α) : Read (List α) := do
  let count ← readCount what
  readElements element count

/-- A counted section whose count must pass a test, reported at the count. -/
def readVectorIf {α : Type} (what : String) (allowed : Nat → Prop) [DecidablePred allowed]
    (message : String) (element : Read α) : Read (List α) := do
  let position ← offset
  let count ← readCount what
  if ¬ allowed count then failAt position message else readElements element count

/-! ### Writers -/

def writeU8 (byte : UInt8) : List UInt8 := [byte]

def writeU32 (value : Nat) : List UInt8 := leBytes 4 value

def writeU64 (value : Nat) : List UInt8 := leBytes 8 value

def writeI64 (value : Int) : List UInt8 := writeU64 (value % 2 ^ 64).toNat

def writeString (name : Name) : List UInt8 := writeU32 name.length ++ name

def writeVector {α : Type} (write : α → List UInt8) (values : List α) : List UInt8 :=
  writeU32 values.length ++ values.flatMap write

@[simp] theorem length_writeU8 (byte : UInt8) : (writeU8 byte).length = 1 := rfl
@[simp] theorem length_writeU32 (value : Nat) : (writeU32 value).length = 4 :=
  length_leBytes 4 value
@[simp] theorem length_writeU64 (value : Nat) : (writeU64 value).length = 8 :=
  length_leBytes 8 value
@[simp] theorem length_writeI64 (value : Int) : (writeI64 value).length = 8 := length_writeU64 _

/-! ### The fixed-width reads -/

theorem parses_readFixed (size count : Nat) (message : String) :
    Parses size (readFixed count message) fun bytes value =>
      bytes = value ∧ value.length = count := by
  intro data at' hdata hat
  rw [readFixed, bind_apply, remaining, Outcome.ok_bind]
  split
  · trivial
  · rename_i hleft
    rw [takeBytes, if_pos (by omega)]
    have hlength : ((data.drop at').take count).length = count := by
      rw [List.length_take, List.length_drop]
      omega
    exact ⟨_, (data.drop at').drop count, (List.take_append_drop count _).symm,
      by rw [hlength], rfl, hlength⟩

theorem accepts_readFixed (bytes : List UInt8) (message : String) :
    Accepts (readFixed bytes.length message) bytes (· = bytes) :=
  accepts_remaining_bind fun _ hleft =>
    Accepts.guard (Nat.not_lt.mpr hleft) (accepts_takeBytes bytes)

theorem codes_readU8 : Codes readU8 (fun _ => True) writeU8 where
  sound size := by
    refine (parses_readFixed size 1 _).bind fun bytes value _ ⟨hbytes, hlength⟩ => parses_pure ?_
    subst hbytes
    obtain ⟨byte, rfl⟩ := List.length_eq_one_iff.mp hlength
    simp [writeU8, leNat]
  complete byte _ := by
    rw [← List.append_nil (writeU8 byte)]
    refine (accepts_readFixed [byte] _).bind ?_
    rintro _ rfl
    exact accepts_pure (by simp [leNat])

theorem codes_readU32 : Codes readU32 (· < 2 ^ 32) writeU32 where
  sound size := by
    refine (parses_readFixed size 4 _).bind fun bytes value _ ⟨hbytes, hlength⟩ => parses_pure ?_
    subst hbytes
    refine ⟨?_, ?_⟩
    · rw [List.append_nil, writeU32, ← hlength, leBytes_leNat]
    · have hlt := leNat_lt bytes
      rwa [hlength] at hlt
  complete value hvalue := by
    rw [← List.append_nil (writeU32 value)]
    have hread := accepts_readFixed (writeU32 value) "truncated: expected u32"
    rw [length_writeU32] at hread
    refine hread.bind ?_
    rintro _ rfl
    exact accepts_pure (leNat_leBytes hvalue)

theorem codes_readU64 : Codes readU64 (· < 2 ^ 64) writeU64 where
  sound size := by
    refine (parses_readFixed size 8 _).bind fun bytes value _ ⟨hbytes, hlength⟩ => parses_pure ?_
    subst hbytes
    refine ⟨?_, ?_⟩
    · rw [List.append_nil, writeU64, ← hlength, leBytes_leNat]
    · have hlt := leNat_lt bytes
      rwa [hlength] at hlt
  complete value hvalue := by
    rw [← List.append_nil (writeU64 value)]
    have hread := accepts_readFixed (writeU64 value) "truncated: expected u64"
    rw [length_writeU64] at hread
    refine hread.bind ?_
    rintro _ rfl
    exact accepts_pure (leNat_leBytes hvalue)

theorem codes_readI64 : Codes readI64 FitsI64 writeI64 where
  sound size := by
    refine (codes_readU64.sound size).bind fun bytes raw _ ⟨hbytes, hraw⟩ => parses_pure ?_
    have hmod : (wrap64 (raw : Int) % 2 ^ 64).toNat = raw := by
      rw [wrap64, Int.bmod_def]
      split <;> omega
    rw [List.append_nil, hbytes, writeI64, hmod]
    exact ⟨rfl, fitsI64_wrap64 _⟩
  complete value hvalue := by
    have hraw : (value % 2 ^ 64).toNat < 2 ^ 64 := by omega
    have hback : wrap64 ((value % 2 ^ 64).toNat : Int) = value := by
      rw [Int.toNat_of_nonneg (by omega), wrap64_emod, wrap64_of_fits hvalue]
    have hread : Accepts readU64 (writeI64 value) (· = (value % 2 ^ 64).toNat) :=
      codes_readU64.complete _ hraw
    rw [← List.append_nil (writeI64 value)]
    refine hread.bind fun raw hraw' => accepts_pure ?_
    rw [hraw', hback]

theorem codes_readEnum {α : Type} (table : ByteTable α) (message : String) :
    Codes (readEnum table message) (fun _ => True) (fun value => writeU8 (table.toByte value)) where
  sound size := by
    refine parses_offset_bind fun _ => (codes_readU8.sound size).bind fun bytes byte _ hbyte => ?_
    split
    · rename_i value hvalue
      refine parses_pure ⟨?_, trivial⟩
      rw [hbyte.1, List.append_nil, table.toByte_of_ofByte? byte value hvalue]
    · exact parses_fail _
  complete value _ := by
    rw [← List.append_nil (writeU8 _)]
    refine accepts_offset_bind fun _ => (codes_readU8.complete (table.toByte value) trivial).bind ?_
    rintro _ rfl
    rw [table.ofByte?_toByte]
    exact accepts_pure rfl

/-! ### Counts, strings and vectors -/

/-- A successful count leaves at least that many bytes. -/
theorem sat_readCount {data : List UInt8} {at' : Nat} (hat : at' ≤ data.length) (what : String) :
    (readCount what data at').Sat fun result => ∃ rest,
      data.drop at' = writeU32 result.1 ++ rest ∧ result.2 = at' + 4 ∧
        result.1 < 2 ^ 32 ∧ result.1 ≤ rest.length := by
  rw [readCount, bind_apply, offset, Outcome.ok_bind, bind_apply]
  refine Outcome.sat_bind.mpr ((codes_readU32.sound _ data at' rfl hat).mono ?_)
  rintro ⟨count, middle⟩ ⟨bytes, rest, hdrop, hmiddle, hbytes, hcount⟩
  subst hbytes
  have hlength := congrArg List.length hdrop
  simp only [List.length_drop, List.length_append, length_writeU32] at hlength hmiddle
  rw [bind_apply, remaining, Outcome.ok_bind]
  split
  · trivial
  · exact ⟨rest, hdrop, hmiddle, hcount, by omega⟩

theorem parses_readCount (size : Nat) (what : String) :
    Parses size (readCount what) fun bytes count =>
      bytes = writeU32 count ∧ count < 2 ^ 32 ∧ count ≤ size := by
  rintro data at' rfl hat
  refine (sat_readCount hat what).mono ?_
  rintro ⟨count, next⟩ ⟨rest, hdrop, hnext, hlt, hle⟩
  have hlength := congrArg List.length hdrop
  simp only [List.length_drop, List.length_append, length_writeU32] at hlength
  exact ⟨writeU32 count, rest, hdrop, by rw [hnext, length_writeU32], rfl, hlt, by omega⟩

/-- A count is accepted in front of at least that many bytes. -/
theorem accepts_readCount_bind {β : Type} {what : String} {count : Nat} {next : Nat → Read β}
    {bytes : List UInt8} {post : β → Prop} (hlt : count < 2 ^ 32) (hle : count ≤ bytes.length)
    (h : Accepts (next count) bytes post) :
    Accepts (readCount what >>= next) (writeU32 count ++ bytes) post := by
  intro before after
  obtain ⟨read, hread, hrun⟩ := codes_readU32.complete count hlt before (bytes ++ after)
  rw [hread] at hrun
  obtain ⟨value, hvalue, hrun'⟩ := h (before ++ writeU32 count) after
  have hdata : before ++ (writeU32 count ++ bytes) ++ after =
      before ++ writeU32 count ++ (bytes ++ after) := by simp only [List.append_assoc]
  have hcount : readCount what (before ++ writeU32 count ++ (bytes ++ after)) before.length =
      .ok (count, before.length + (writeU32 count).length) := by
    rw [readCount, bind_apply, offset, Outcome.ok_bind, bind_apply, hrun, Outcome.ok_bind,
      bind_apply, remaining, Outcome.ok_bind, if_neg, pure_apply]
    simp only [List.length_append]
    omega
  refine ⟨value, hvalue, ?_⟩
  rw [List.append_assoc _ bytes, List.length_append] at hrun'
  rw [hdata, bind_apply, hcount, Outcome.ok_bind, hrun', List.length_append, Nat.add_assoc]

theorem codes_readString : Codes readString (fun name => name.length < 2 ^ 32) writeString where
  sound size := by
    rintro data at' rfl hat
    rw [readString, bind_apply]
    refine Outcome.sat_bind.mpr ((sat_readCount hat _).mono ?_)
    rintro ⟨length, next⟩ ⟨rest, hdrop, rfl, hlt, hle⟩
    have hlength := congrArg List.length hdrop
    simp only [List.length_drop, List.length_append, length_writeU32] at hlength
    have hrest : data.drop (at' + 4) = rest := by
      rw [← List.drop_drop, hdrop]
      exact List.drop_left' (length_writeU32 length)
    rw [takeBytes, if_pos (by omega), hrest]
    have htake : (rest.take length).length = length := by
      rw [List.length_take]
      omega
    refine ⟨writeU32 length ++ rest.take length, rest.drop length, ?_, ?_, ?_, ?_⟩
    · rw [hdrop, List.append_assoc, List.take_append_drop]
    · simp only [List.length_append, length_writeU32, htake]
      omega
    · simp only [writeString, htake]
    · simp only [htake]
      exact hlt
  complete name hname := accepts_readCount_bind hname le_rfl (accepts_takeBytes name)

theorem parses_readElements {α β : Type} {view : α → β} {p : Read α} {wf : β → Prop}
    {write : β → List UInt8} (h : CodesVia view p wf write) {size count : Nat}
    (hcount : count ≤ size) :
    Parses size (readElements p count) fun bytes values =>
      bytes = (values.map view).flatMap write ∧ (values.map view).length = count ∧
        ∀ value ∈ values.map view, wf value :=
  (parses_reserve hcount).bind fun bytes _ _ hnil => by
    subst hnil
    exact (h.repeatRead count).sound size

theorem accepts_readElements {α β : Type} {view : α → β} {p : Read α} {wf : β → Prop}
    {write : β → List UInt8} (h : CodesVia view p wf write)
    (hwrite : ∀ value, wf value → 1 ≤ (write value).length)
    {values : List β} (hall : ∀ value ∈ values, wf value) :
    Accepts (readElements p values.length) (values.flatMap write) (List.map view · = values) :=
  accepts_reserve_bind
    (length_le_length_flatMap fun value hvalue => hwrite value (hall value hvalue))
    ((h.repeatRead values.length).complete values ⟨rfl, hall⟩)

theorem codesVia_readVector {α β : Type} {view : α → β} {what : String} {p : Read α}
    {wf : β → Prop} {write : β → List UInt8} (h : CodesVia view p wf write)
    (hwrite : ∀ value, wf value → 1 ≤ (write value).length) :
    CodesVia (List.map view) (readVector what p)
      (fun values => values.length < 2 ^ 32 ∧ ∀ value ∈ values, wf value)
      (writeVector write) where
  sound size := by
    refine (parses_readCount size what).bind fun bytes count _ ⟨hbytes, hlt, hle⟩ =>
      (parses_readElements h hle).mono ?_
    rintro bytes' values _ ⟨hvalues, hlength, hall⟩
    subst hbytes hvalues hlength
    exact ⟨rfl, hlt, hall⟩
  complete values hvalues :=
    accepts_readCount_bind hvalues.1
      (length_le_length_flatMap fun value hvalue => hwrite value (hvalues.2 value hvalue))
      (accepts_readElements h hwrite hvalues.2)

theorem codes_readVector {α : Type} {what : String} {p : Read α} {wf : α → Prop}
    {write : α → List UInt8} (h : Codes p wf write)
    (hwrite : ∀ value, wf value → 1 ≤ (write value).length) :
    Codes (readVector what p) (fun values => values.length < 2 ^ 32 ∧ ∀ value ∈ values, wf value)
      (writeVector write) where
  sound size := ((codesVia_readVector h.via hwrite).sound size).mono fun _ values _ hpost => by
    rwa [List.map_id'] at hpost
  complete values hvalues := ((codesVia_readVector h.via hwrite).complete values hvalues).mono
    fun result hresult => by rwa [List.map_id'] at hresult

theorem codes_readVectorIf {α : Type} {what message : String} {allowed : Nat → Prop}
    [DecidablePred allowed] {p : Read α} {wf : α → Prop} {write : α → List UInt8}
    (h : Codes p wf write) (hwrite : ∀ value, wf value → 1 ≤ (write value).length) :
    Codes (readVectorIf what allowed message p)
      (fun values => values.length < 2 ^ 32 ∧ allowed values.length ∧ ∀ value ∈ values, wf value)
      (writeVector write) where
  sound size := by
    refine parses_offset_bind fun _ =>
      (parses_readCount size what).bind fun bytes count _ ⟨hbytes, hlt, hle⟩ =>
        Parses.guard fun hallowed => (parses_readElements h.via hle).mono ?_
    rintro bytes' values _ ⟨hvalues, hlength, hall⟩
    rw [List.map_id'] at hvalues hlength hall
    subst hbytes hvalues hlength
    exact ⟨rfl, hlt, not_not.mp hallowed, hall⟩
  complete values hvalues :=
    accepts_offset_bind fun _ => accepts_readCount_bind hvalues.1
      (length_le_length_flatMap fun value hvalue => hwrite value (hvalues.2.2 value hvalue))
      (Accepts.guard (not_not.mpr hvalues.2.1)
        ((accepts_readElements h.via hwrite hvalues.2.2).mono fun _ hresult => by
          rwa [List.map_id'] at hresult))

theorem length_writeVector_pos {α : Type} (write : α → List UInt8) (values : List α) :
    1 ≤ (writeVector write values).length := by
  simp only [writeVector, List.length_append, length_writeU32]
  omega

/-! ### Whole buffers -/

/-- Read a whole buffer: nothing may be left over, and what was read goes through
    a last check that knows where the buffer ends. -/
def decodeAll {α β : Type} (p : Read α) (trailing : String)
    (check : Nat → α → Outcome DecodeError β) (data : List UInt8) : Outcome DecodeError β :=
  p data 0 >>= fun result =>
    if data.length - result.2 ≠ 0 then .error ⟨result.2, trailing⟩ else check result.2 result.1

/-- A whole buffer decodes to a value exactly when it is what the writer gives
    for something that passes the check. -/
theorem decodeAll_eq_ok {α β γ : Type} {view : α → β} {p : Read α} {wf : β → Prop}
    {write : β → List UInt8} (h : CodesVia view p wf write) {trailing : String}
    {check : Nat → α → Outcome DecodeError γ} {data : List UInt8} {result : γ} :
    decodeAll p trailing check data = .ok result ↔
      ∃ value, p data 0 = .ok (value, data.length) ∧ wf (view value) ∧
        data = write (view value) ∧ check data.length value = .ok result := by
  constructor
  · intro hrun
    obtain ⟨⟨value, next⟩, hread, hrest⟩ := Outcome.bind_ok_iff.mp hrun
    obtain ⟨bytes, rest, hdrop, hnext, hbytes, hwf⟩ :=
      (h.sound _ data 0 rfl (Nat.zero_le _)).of_ok hread
    rw [List.drop_zero] at hdrop
    simp only [Nat.zero_add] at hnext
    subst hnext hdrop
    rw [List.length_append, Nat.add_sub_cancel_left] at hrest
    split at hrest
    · cases hrest
    · rename_i hnil
      rw [not_not, List.length_eq_zero_iff] at hnil
      subst hnil
      rw [List.append_nil] at hread ⊢
      exact ⟨value, hread, hwf, hbytes, hrest⟩
  · rintro ⟨value, hread, -, -, hcheck⟩
    rw [decodeAll, hread, Outcome.ok_bind, if_neg (by simp)]
    exact hcheck

/-- What the writer gives is read to the end. -/
theorem reads_write {α β : Type} {view : α → β} {p : Read α} {wf : β → Prop}
    {write : β → List UInt8} (h : CodesVia view p wf write) {value : β} (hwf : wf value) :
    ∃ found, p (write value) 0 = .ok (found, (write value).length) ∧ view found = value := by
  obtain ⟨found, hview, hread⟩ := h.complete value hwf [] []
  simp only [List.nil_append, List.append_nil, List.length_nil, Nat.zero_add] at hread
  exact ⟨found, hread, hview⟩

/-- Decoding never faults as long as the check does not. -/
theorem safe_decodeAll {α β γ : Type} {view : α → β} {p : Read α} {wf : β → Prop}
    {write : β → List UInt8} (h : CodesVia view p wf write) {trailing : String}
    {check : Nat → α → Outcome DecodeError γ}
    (hcheck : ∀ position value, wf (view value) → (check position value).Safe) (data : List UInt8) :
    (decodeAll p trailing check data).Safe := by
  refine Outcome.sat_bind.mpr ((h.sound _ data 0 rfl (Nat.zero_le _)).mono ?_)
  rintro ⟨value, next⟩ ⟨bytes, rest, _, _, _, hwf⟩
  exact Outcome.sat_ite (fun _ => trivial) fun _ => hcheck next value hwf

end ByteReader

end SymReloc
