import SymReloc.Reloc.Plan
import SymReloc.Wire.ExprTree

/-!
# Encoding a layout plan

`PlanEncoder` writes the body while it builds the symbol table by first use, and
puts header, table and body together at the end.  Streams in the body hold table
positions, which stay valid because the table only grows at its end.

`Emits` says what a step of the encoder does to its state: it interns a list of
names and appends bytes that depend on the final table.  `encodePlan_eq` is the
sum: what the encoder produces is the documented encoding of the plan it was
given.
-/

namespace SymReloc

open ByteReader

/-! ### The encoder's state -/

/-- The diagnostics of the encoder. -/
inductive EncodeError where
  | affineSymbol
  | ceilDiv
  | typeNotRepresentable (type : MlirType)
  | signedInteger (type : MlirType)
  | wideInteger (type : MlirType)
  | valueNotRepresentable (value : TypedAttr)
  | elementTypeChange (src dst : MlirType)
deriving DecidableEq, Repr

/-- The body written so far and the symbols met so far. -/
structure EncoderState where
  body : List UInt8
  symbols : List Name
deriving DecidableEq, Repr

/-- A step of the encoder. -/
abbrev Encode (α : Type) := EncoderState → Except EncodeError (α × EncoderState)

namespace Encode

def run {α β : Type} (step : Encode α) (next : α → Encode β) : Encode β := fun state =>
  match step state with
  | .ok (value, state) => next value state
  | .error reason => .error reason

def done {α : Type} (value : α) : Encode α := fun state => .ok (value, state)

def refuse {α : Type} (reason : EncodeError) : Encode α := fun _ => .error reason

instance : Monad Encode where
  pure := done
  bind := run

theorem bind_eq_ok {α β : Type} {step : Encode α} {next : α → Encode β}
    {state state' : EncoderState} {value : β} :
    (step >>= next) state = .ok (value, state') ↔
      ∃ middle stateₘ, step state = .ok (middle, stateₘ) ∧
        next middle stateₘ = .ok (value, state') := by
  change run step next state = _ ↔ _
  unfold run
  cases step state with
  | error reason => simp
  | ok result =>
      obtain ⟨middle, stateₘ⟩ := result
      simp

theorem pure_eq_ok {α : Type} {value result : α} {state state' : EncoderState} :
    (pure value : Encode α) state = .ok (result, state') ↔ value = result ∧ state = state' := by
  change done value state = _ ↔ _
  simp [done]

end Encode

/-! ### Interning symbols -/

/-- The table after meeting a list of names: new ones go to the end. -/
def intern (table : List Name) : List Name → List Name
  | [] => table
  | name :: names => intern (if name ∈ table then table else table ++ [name]) names

theorem intern_append (table names names' : List Name) :
    intern table (names ++ names') = intern (intern table names) names' := by
  induction names generalizing table with
  | nil => rfl
  | cons name names ih => exact ih _

theorem prefix_intern (table names : List Name) : table <+: intern table names := by
  induction names generalizing table with
  | nil => exact List.prefix_rfl
  | cons name names ih =>
      refine List.IsPrefix.trans ?_ (ih _)
      split
      · exact List.prefix_rfl
      · exact List.prefix_append table [name]

theorem mem_intern {table names : List Name} {name : Name} :
    name ∈ intern table names ↔ name ∈ table ∨ name ∈ names := by
  induction names generalizing table with
  | nil => simp [intern]
  | cons first names ih =>
      rw [intern, ih]
      split
      · rename_i hfirst
        constructor
        · rintro (h | h)
          · exact Or.inl h
          · exact Or.inr (List.mem_cons_of_mem first h)
        · rintro (h | h)
          · exact Or.inl h
          · rcases List.mem_cons.mp h with rfl | h
            · exact Or.inl hfirst
            · exact Or.inr h
      · rw [List.mem_append, List.mem_singleton, List.mem_cons, or_assoc]

/-- A name keeps its position as the table grows. -/
theorem idxOf_of_extends {table final : List Name} {name : Name} (hextends : table <+: final)
    (hname : name ∈ table) : final.idxOf name = table.idxOf name := by
  obtain ⟨rest, rfl⟩ := hextends
  exact List.idxOf_append_of_mem hname

/-! ### What a step does -/

/-- A successful step interns the names and appends to the body the bytes that
    the final table, whatever it becomes, gives them; it succeeds only on what
    `needs` describes. -/
def Emits (step : Encode Unit) (names : List Name) (out : List Name → List UInt8)
    (needs : Prop) : Prop :=
  ∀ state state', step state = .ok ((), state') →
    needs ∧ state'.symbols = intern state.symbols names ∧
      ∀ table, state'.symbols <+: table → state'.body = state.body ++ out table

theorem Emits.bind {step step' : Encode Unit} {names names' : List Name}
    {out out' : List Name → List UInt8} {needs needs' : Prop} (h : Emits step names out needs)
    (h' : Emits step' names' out' needs') :
    Emits (step >>= fun _ => step') (names ++ names') (fun table => out table ++ out' table)
      (needs ∧ needs') := by
  intro state state'' hrun
  obtain ⟨_, state', hstep, hstep'⟩ := Encode.bind_eq_ok.mp hrun
  obtain ⟨hneeds, hsymbols, hbody⟩ := h state state' hstep
  obtain ⟨hneeds', hsymbols', hbody'⟩ := h' state' state'' hstep'
  refine ⟨⟨hneeds, hneeds'⟩, by rw [hsymbols', hsymbols, intern_append], fun table htable => ?_⟩
  have hgrow : state'.symbols <+: state''.symbols := by
    rw [hsymbols']
    exact prefix_intern _ _
  rw [hbody' table htable, hbody table (hgrow.trans htable), List.append_assoc]

/-- Restate what a step does. -/
theorem Emits.congr {step : Encode Unit} {names names' : List Name}
    {out out' : List Name → List UInt8} {needs needs' : Prop} (h : Emits step names out needs)
    (hnames : names = names') (hout : ∀ table, out table = out' table) (hneeds : needs → needs') :
    Emits step names' out' needs' := by
  intro state state' hrun
  obtain ⟨hn, hsymbols, hbody⟩ := h state state' hrun
  exact ⟨hneeds hn, hnames ▸ hsymbols, fun table htable => hout table ▸ hbody table htable⟩

theorem emits_pure : Emits (pure ()) [] (fun _ => []) True := by
  intro state state' hrun
  obtain ⟨-, rfl⟩ := Encode.pure_eq_ok.mp hrun
  exact ⟨trivial, rfl, fun _ _ => (List.append_nil _).symm⟩

theorem emits_refuse {names : List Name} {out : List Name → List UInt8} {needs : Prop}
    (reason : EncodeError) : Emits (Encode.refuse reason) names out needs :=
  fun _ _ hrun => by cases hrun

/-- One step for each element of a list. -/
def emitEach {α : Type} (emit : α → Encode Unit) : List α → Encode Unit
  | [] => pure ()
  | value :: values => do
      emit value
      emitEach emit values

theorem emits_emitEach {α : Type} {emit : α → Encode Unit} {names : α → List Name}
    {out : α → List Name → List UInt8} {needs : α → Prop}
    (h : ∀ value, Emits (emit value) (names value) (out value) (needs value)) (values : List α) :
    Emits (emitEach emit values) (values.flatMap names)
      (fun table => values.flatMap fun value => out value table)
      (∀ value ∈ values, needs value) := by
  induction values with
  | nil => exact emits_pure.congr rfl (fun _ => rfl) fun _ _ hvalue => by cases hvalue
  | cons value values ih =>
      exact ((h value).bind ih).congr rfl (fun _ => rfl) fun hneeds =>
        List.forall_mem_cons.mpr hneeds

/-! ### Primitive emitters -/

/-- Append bytes to the body. -/
def emitBytes (bytes : List UInt8) : Encode Unit := fun state =>
  .ok ((), { state with body := state.body ++ bytes })

def emitU8 (value : UInt8) : Encode Unit := emitBytes (writeU8 value)
def emitU32 (value : Nat) : Encode Unit := emitBytes (writeU32 value)
def emitI64 (value : Int) : Encode Unit := emitBytes (writeI64 value)
def emitStr (name : Name) : Encode Unit := do
  emitU32 name.length
  emitBytes name

theorem emits_emitBytes (bytes : List UInt8) :
    Emits (emitBytes bytes) [] (fun _ => bytes) True := by
  intro state state' hrun
  cases hrun
  exact ⟨trivial, rfl, fun _ _ => rfl⟩

theorem emits_emitStr (name : Name) : Emits (emitStr name) [] (fun _ => writeString name) True :=
  ((emits_emitBytes (writeU32 name.length)).bind (emits_emitBytes name)).congr rfl
    (fun _ => rfl) fun _ => trivial

/-- A count in front of a list of elements. -/
def emitVector {α : Type} (emit : α → Encode Unit) (values : List α) : Encode Unit := do
  emitU32 values.length
  emitEach emit values

theorem emits_emitVector {α : Type} {emit : α → Encode Unit} {names : α → List Name}
    {out : α → List Name → List UInt8} {needs : α → Prop}
    (h : ∀ value, Emits (emit value) (names value) (out value) (needs value)) (values : List α) :
    Emits (emitVector emit values) (values.flatMap names)
      (fun table => writeU32 values.length ++ values.flatMap fun value => out value table)
      (∀ value ∈ values, needs value) :=
  ((emits_emitBytes (writeU32 values.length)).bind (emits_emitEach h values)).congr rfl
    (fun _ => rfl) And.right

/-- `symbolIndex`: the position of a name, which enters the table if it is new. -/
def symbolIndex (name : Name) : Encode Nat := fun state =>
  if name ∈ state.symbols then .ok (state.symbols.idxOf name, state)
  else .ok (state.symbols.length, { state with symbols := state.symbols ++ [name] })

/-! ### Expressions -/

/-- The operations of an expression: their number and their bytes. -/
abbrev ExprOps := Nat × List UInt8

/-- `emitExprOps`. -/
def emitExprOps : SymExpr → Encode ExprOps
  | .constant value => pure (1, writeU8 1 ++ writeI64 value)
  | .symbol name => do
      let index ← symbolIndex name
      pure (1, writeU8 0 ++ writeU32 index)
  | .binary opcode lhs rhs => do
      let l ← emitExprOps lhs
      let r ← emitExprOps rhs
      pure (l.1 + r.1 + 1, l.2 ++ r.2 ++ writeU8 (StackOp.bytes.toByte opcode.stackOp))

/-- `emitExpr`. -/
def emitExpr (expr : SymExpr) : Encode Unit := do
  let ops ← emitExprOps expr
  emitU32 ops.1
  emitBytes ops.2

/-- `emitAffineExprOps`; `channelSymbols` are the names the symbol positions of a
    channel map stand for, and absent for the inverse map. -/
def emitAffineExprOps (channelSymbols : Option (List Name)) : AffineExpr → Encode ExprOps
  | .constant value => pure (1, writeU8 1 ++ writeI64 value)
  | .dim position => pure (1, writeU8 7 ++ writeU32 position)
  | .symbol position =>
      match channelSymbols.bind fun names => names[position]? with
      | none => Encode.refuse .affineSymbol
      | some name => do
          let index ← symbolIndex name
          pure (1, writeU8 0 ++ writeU32 index)
  | .binary kind lhs rhs =>
      match kind.stackOp? with
      | none => Encode.refuse .ceilDiv
      | some op => do
          let l ← emitAffineExprOps channelSymbols lhs
          let r ← emitAffineExprOps channelSymbols rhs
          pure (l.1 + r.1 + 1, l.2 ++ r.2 ++ writeU8 (StackOp.bytes.toByte op))

/-- `emitInverseResult`, and the expression part of a channel map. -/
def emitAffineExpr (channelSymbols : Option (List Name)) (expr : AffineExpr) : Encode Unit := do
  let ops ← emitAffineExprOps channelSymbols expr
  emitU32 ops.1
  emitBytes ops.2

/-- What emitting the operations of a tree does: names are interned, and the
    operations are those of the tree over any table grown from there. -/
def EmitsOps (step : Encode ExprOps) (names : List Name) (tree : List Name → Option ExprTree) :
    Prop :=
  ∀ state ops state', step state = .ok (ops, state') →
    state'.symbols = intern state.symbols names ∧ state'.body = state.body ∧
      ∀ table, state'.symbols <+: table → ∃ t, tree table = some t ∧
        ops.1 = t.stream.length ∧ ops.2 = t.stream.flatMap writeToken

theorem symbolIndex_eq_ok {name : Name} {state state' : EncoderState} {index : Nat}
    (h : symbolIndex name state = .ok (index, state')) :
    state'.symbols = intern state.symbols [name] ∧ state'.body = state.body ∧
      ∀ table, state'.symbols <+: table → table.idxOf name = index := by
  unfold symbolIndex at h
  split at h
  · rename_i hname
    cases h
    exact ⟨by simp [intern, hname], rfl, fun table htable => idxOf_of_extends htable hname⟩
  · rename_i hname
    cases h
    refine ⟨by simp [intern, hname], rfl, fun table htable => ?_⟩
    rw [idxOf_of_extends htable (by simp), List.idxOf_append_of_notMem hname]
    simp

theorem emitsOps_emitExprOps (expr : SymExpr) :
    EmitsOps (emitExprOps expr) expr.symbolNames fun table => some (expr.toTree table) := by
  induction expr with
  | constant value =>
      intro state ops state' hrun
      obtain ⟨rfl, rfl⟩ := Encode.pure_eq_ok.mp hrun
      exact ⟨rfl, rfl, fun table _ =>
        ⟨_, rfl, rfl, by simp [SymExpr.toTree, ExprTree.stream, writeToken]⟩⟩
  | symbol name =>
      intro state ops state' hrun
      obtain ⟨index, stateₘ, hindex, hpure⟩ := Encode.bind_eq_ok.mp hrun
      obtain ⟨rfl, rfl⟩ := Encode.pure_eq_ok.mp hpure
      obtain ⟨hsymbols, hbody, hidx⟩ := symbolIndex_eq_ok hindex
      refine ⟨hsymbols, hbody, fun table htable => ⟨_, rfl, rfl, ?_⟩⟩
      simp [SymExpr.toTree, ExprTree.stream, writeToken, hidx table htable]
  | binary opcode lhs rhs ihl ihr =>
      intro state ops state' hrun
      obtain ⟨l, stateₗ, hl, hrun⟩ := Encode.bind_eq_ok.mp hrun
      obtain ⟨r, stateᵣ, hr, hpure⟩ := Encode.bind_eq_ok.mp hrun
      obtain ⟨rfl, rfl⟩ := Encode.pure_eq_ok.mp hpure
      obtain ⟨hsymbols, hbody, hops⟩ := ihl state l stateₗ hl
      obtain ⟨hsymbols', hbody', hops'⟩ := ihr stateₗ r stateᵣ hr
      have hgrow : stateₗ.symbols <+: stateᵣ.symbols := by
        rw [hsymbols']
        exact prefix_intern _ _
      refine ⟨by rw [hsymbols', hsymbols, SymExpr.symbolNames, intern_append], hbody'.trans hbody,
        fun table htable => ⟨_, rfl, ?_⟩⟩
      obtain ⟨_, ⟨⟩, hcount, hbytes⟩ := hops table (hgrow.trans htable)
      obtain ⟨_, ⟨⟩, hcount', hbytes'⟩ := hops' table htable
      simp [SymExpr.toTree, ExprTree.stream, hcount, hcount', hbytes, hbytes', writeToken,
        Nat.add_assoc]

theorem emitsOps_emitAffineExprOps (channelSymbols : Option (List Name)) (expr : AffineExpr) :
    EmitsOps (emitAffineExprOps channelSymbols expr)
      (expr.symbolNames (channelSymbols.getD [])) fun table =>
        expr.toTree? table (channelSymbols.getD []) := by
  induction expr with
  | constant value =>
      intro state ops state' hrun
      obtain ⟨rfl, rfl⟩ := Encode.pure_eq_ok.mp hrun
      exact ⟨rfl, rfl, fun table _ => ⟨_, rfl, rfl, by simp [ExprTree.stream, writeToken]⟩⟩
  | dim position =>
      intro state ops state' hrun
      obtain ⟨rfl, rfl⟩ := Encode.pure_eq_ok.mp hrun
      exact ⟨rfl, rfl, fun table _ => ⟨_, rfl, rfl, by simp [ExprTree.stream, writeToken]⟩⟩
  | symbol position =>
      intro state ops state' hrun
      cases hname : channelSymbols.bind fun names => names[position]? with
      | none =>
        simp only [emitAffineExprOps, hname] at hrun
        cases hrun
      | some name =>
        simp only [emitAffineExprOps, hname] at hrun
        obtain ⟨names, rfl, hget⟩ := Option.bind_eq_some_iff.mp hname
        obtain ⟨index, stateₘ, hindex, hpure⟩ := Encode.bind_eq_ok.mp hrun
        obtain ⟨rfl, rfl⟩ := Encode.pure_eq_ok.mp hpure
        obtain ⟨hsymbols, hbody, hidx⟩ := symbolIndex_eq_ok hindex
        refine ⟨?_, hbody, fun table htable => ⟨.sym (table.idxOf name), ?_, rfl, ?_⟩⟩
        · simpa [AffineExpr.symbolNames, hget] using hsymbols
        · simp [AffineExpr.toTree?, hget]
        · simp [ExprTree.stream, writeToken, hidx table htable]
  | binary kind lhs rhs ihl ihr =>
      intro state ops state' hrun
      cases hop : kind.stackOp? with
      | none =>
        simp only [emitAffineExprOps, hop] at hrun
        cases hrun
      | some op =>
        simp only [emitAffineExprOps, hop] at hrun
        obtain ⟨l, stateₗ, hl, hrun⟩ := Encode.bind_eq_ok.mp hrun
        obtain ⟨r, stateᵣ, hr, hpure⟩ := Encode.bind_eq_ok.mp hrun
        obtain ⟨rfl, rfl⟩ := Encode.pure_eq_ok.mp hpure
        obtain ⟨hsymbols, hbody, hops⟩ := ihl state l stateₗ hl
        obtain ⟨hsymbols', hbody', hops'⟩ := ihr stateₗ r stateᵣ hr
        have hgrow : stateₗ.symbols <+: stateᵣ.symbols := by
          rw [hsymbols']
          exact prefix_intern _ _
        refine ⟨by rw [hsymbols', hsymbols, AffineExpr.symbolNames, intern_append],
          hbody'.trans hbody, fun table htable => ?_⟩
        obtain ⟨tl, htl, hcount, hbytes⟩ := hops table (hgrow.trans htable)
        obtain ⟨tr, htr, hcount', hbytes'⟩ := hops' table htable
        refine ⟨.node op tl tr, AffineExpr.toTree?_binary.mpr ⟨op, tl, tr, hop, htl, htr, rfl⟩, ?_⟩
        simp [ExprTree.stream, hcount, hcount', hbytes, hbytes', writeToken, Nat.add_assoc]

/-- Emitting operations with their count in front. -/
theorem EmitsOps.emits {step : Encode ExprOps} {names : List Name}
    {tree : List Name → Option ExprTree} (h : EmitsOps step names tree) :
    Emits (do let ops ← step; emitU32 ops.1; emitBytes ops.2) names
      (fun table => writeStream (((tree table).map ExprTree.stream).getD []))
      (∃ table, (tree table).isSome) := by
  intro state state' hrun
  obtain ⟨ops, stateₘ, hstep, hrun⟩ := Encode.bind_eq_ok.mp hrun
  obtain ⟨hsymbols, hbody, hops⟩ := h state ops stateₘ hstep
  obtain ⟨-, hsymbols', hbody'⟩ :=
    ((emits_emitBytes (writeU32 ops.1)).bind (emits_emitBytes ops.2)) stateₘ state' hrun
  obtain ⟨t, ht, -, -⟩ := hops _ List.prefix_rfl
  refine ⟨⟨stateₘ.symbols, by rw [ht]; rfl⟩, by rw [hsymbols', hsymbols]; rfl,
    fun table htable => ?_⟩
  have hsame : stateₘ.symbols <+: table := by
    rw [hsymbols'] at htable
    exact htable
  obtain ⟨t, ht, hcount, hbytes⟩ := hops table hsame
  rw [hbody' table htable, hbody]
  simp only [ht, hcount, hbytes]
  rfl

/-- The stream of an affine expression over a table. -/
def affineStream (table symbols : List Name) (expr : AffineExpr) : ExprStream :=
  ((expr.toTree? table symbols).map ExprTree.stream).getD []

theorem emits_emitExpr (expr : SymExpr) :
    Emits (emitExpr expr) expr.symbolNames (fun table => writeStream (expr.toTree table).stream)
      True :=
  (emitsOps_emitExprOps expr).emits.congr rfl (fun _ => rfl) fun _ => trivial

theorem emits_emitAffineExpr (channelSymbols : Option (List Name)) (expr : AffineExpr) :
    Emits (emitAffineExpr channelSymbols expr) (expr.symbolNames (channelSymbols.getD []))
      (fun table => writeStream (affineStream table (channelSymbols.getD []) expr))
      (expr.Encodable (channelSymbols.getD [])) :=
  (emitsOps_emitAffineExprOps channelSymbols expr).emits.congr rfl (fun _ => rfl)
    fun ⟨table, hsome⟩ =>
      (AffineExpr.encodable_iff table _ expr).mpr (Option.isSome_iff_exists.mp hsome)

end SymReloc
