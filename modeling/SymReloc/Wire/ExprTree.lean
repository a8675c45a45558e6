import SymReloc.Reloc.Types
import SymReloc.Wire.Plan

/-!
# Postfix streams of expression trees

The compiler writes symbolic and affine expressions in postfix order.  Both are
first resolved against the symbol table into one kind of tree, whose postfix
stream a stack machine evaluates to the value of the tree, whatever the
operators mean and wherever they are undefined (`ExprTree.evalWith_stream`).
-/

namespace SymReloc

/-! ### The abstract stack machine -/

section
variable (sem : StackOp → Int → Int → Option Int) (sym dim : Nat → Option Int)

/-- Run a stream on a stack, the top of the stack first. -/
def ExprStream.run : ExprStream → List Int → Option (List Int)
  | [], stack => some stack
  | .pushSym index :: rest, stack => (sym index).bind fun v => ExprStream.run rest (v :: stack)
  | .pushConst value :: rest, stack => ExprStream.run rest (value :: stack)
  | .pushDim index :: rest, stack => (dim index).bind fun v => ExprStream.run rest (v :: stack)
  | .apply op :: rest, b :: a :: stack =>
      (sem op a b).bind fun v => ExprStream.run rest (v :: stack)
  | .apply _ :: _, _ => none

/-- The value a stream leaves when it leaves exactly one. -/
def ExprStream.evalWith (stream : ExprStream) : Option Int :=
  match ExprStream.run sem sym dim stream [] with
  | some [value] => some value
  | _ => none

end

/-! ### Trees -/

/-- An expression whose symbols are table positions. -/
inductive ExprTree where
  | sym (index : Nat)
  | const (value : Int)
  | dim (index : Nat)
  | node (op : StackOp) (lhs rhs : ExprTree)
deriving DecidableEq, Repr

namespace ExprTree

def stream : ExprTree → ExprStream
  | .sym index => [.pushSym index]
  | .const value => [.pushConst value]
  | .dim index => [.pushDim index]
  | .node op lhs rhs => lhs.stream ++ rhs.stream ++ [.apply op]

def evalWith (sem : StackOp → Int → Int → Option Int) (sym dim : Nat → Option Int) :
    ExprTree → Option Int
  | .sym index => sym index
  | .const value => some value
  | .dim index => dim index
  | .node op lhs rhs =>
      (lhs.evalWith sem sym dim).bind fun l => (rhs.evalWith sem sym dim).bind fun r => sem op l r

/-- Every operand is legal in the scope. -/
def InScope (scope : ExprScope) : ExprTree → Prop
  | .sym index => (ExprToken.pushSym index).WellFormed scope
  | .const value => (ExprToken.pushConst value).WellFormed scope
  | .dim index => (ExprToken.pushDim index).WellFormed scope
  | .node _ lhs rhs => lhs.InScope scope ∧ rhs.InScope scope

theorem run_stream (sem : StackOp → Int → Int → Option Int) (sym dim : Nat → Option Int)
    (tree : ExprTree) (rest : ExprStream) (stack : List Int) :
    ExprStream.run sem sym dim (tree.stream ++ rest) stack =
      (tree.evalWith sem sym dim).bind fun value =>
        ExprStream.run sem sym dim rest (value :: stack) := by
  induction tree generalizing rest stack with
  | sym index => rfl
  | const value => rfl
  | dim index => rfl
  | node op lhs rhs ihl ihr =>
      simp only [stream, List.append_assoc, ihl, ihr, evalWith, List.cons_append, List.nil_append,
        ExprStream.run, Option.bind_assoc]

/-- The stream of a tree evaluates to the value of the tree. -/
theorem evalWith_stream (sem : StackOp → Int → Int → Option Int) (sym dim : Nat → Option Int)
    (tree : ExprTree) :
    ExprStream.evalWith sem sym dim tree.stream = tree.evalWith sem sym dim := by
  have hrun := run_stream sem sym dim tree [] []
  rw [List.append_nil] at hrun
  rw [ExprStream.evalWith, hrun]
  cases tree.evalWith sem sym dim with
  | none => rfl
  | some value => rfl

theorem depthFrom_stream (tree : ExprTree) (rest : ExprStream) (depth : Nat) :
    ExprStream.depthFrom (tree.stream ++ rest) depth = ExprStream.depthFrom rest (depth + 1) := by
  induction tree generalizing rest depth with
  | sym index => rfl
  | const value => rfl
  | dim index => rfl
  | node op lhs rhs ihl ihr =>
      simp only [stream, List.append_assoc, ihl, ihr, List.cons_append, List.nil_append,
        ExprStream.depthFrom]
      rw [if_neg (by omega)]
      rfl

theorem tokens_stream {scope : ExprScope} {tree : ExprTree} (h : tree.InScope scope) :
    ∀ token ∈ tree.stream, token.WellFormed scope := by
  induction tree with
  | sym index => exact List.forall_mem_singleton.mpr h
  | const value => exact List.forall_mem_singleton.mpr h
  | dim index => exact List.forall_mem_singleton.mpr h
  | node op lhs rhs ihl ihr =>
      intro token htoken
      simp only [stream, List.mem_append, List.mem_singleton] at htoken
      rcases htoken with (htoken | htoken) | rfl
      · exact ihl h.1 token htoken
      · exact ihr h.2 token htoken
      · trivial

/-- The stream of a small enough tree in scope is well formed. -/
theorem wellFormed_stream {scope : ExprScope} {tree : ExprTree} (h : tree.InScope scope)
    (hcount : tree.stream.length < 2 ^ 32) : tree.stream.WellFormed scope where
  count_lt := hcount
  tokens := tokens_stream h
  depth := by
    have hdepth := depthFrom_stream tree [] 0
    rwa [List.append_nil] at hdepth

end ExprTree

/-! ### Symbolic expressions -/

/-- The opcode of a symbolic operator. -/
def SymbolicExprOp.stackOp : SymbolicExprOp → StackOp
  | .add => .add
  | .sub => .sub
  | .mul => .mul
  | .div => .floorDiv
  | .mod => .mod

namespace SymExpr

/-- The expression over a symbol table. -/
def toTree (table : List Name) : SymExpr → ExprTree
  | .symbol name => .sym (table.idxOf name)
  | .constant value => .const value
  | .binary opcode lhs rhs => .node opcode.stackOp (lhs.toTree table) (rhs.toTree table)

/-- The number of operations of an expression. -/
def opCount : SymExpr → Nat
  | .symbol _ | .constant _ => 1
  | .binary _ lhs rhs => lhs.opCount + rhs.opCount + 1

/-- Every constant is a 64-bit one. -/
def ConstantsFit : SymExpr → Prop
  | .symbol _ => True
  | .constant value => FitsI64 value
  | .binary _ lhs rhs => lhs.ConstantsFit ∧ rhs.ConstantsFit

@[simp] theorem length_stream (table : List Name) (expr : SymExpr) :
    (expr.toTree table).stream.length = expr.opCount := by
  induction expr with
  | symbol name => rfl
  | constant value => rfl
  | binary opcode lhs rhs ihl ihr =>
      simp only [toTree, ExprTree.stream, opCount, List.length_append, ihl, ihr, List.length_cons,
        List.length_nil]

/-- Table positions carry the values of the names. -/
theorem evalWith_toTree (sem : StackOp → Int → Int → Option Int) (dim : Nat → Option Int)
    {table : List Name} (σ : Name → Int) :
    ∀ {expr : SymExpr}, (∀ name ∈ expr.symbolNames, name ∈ table) →
      (expr.toTree table).evalWith sem (fun index => table[index]?.map σ) dim =
        expr.evalWith (fun op => sem op.stackOp) σ
  | .symbol name, h => by
      have hget : table[table.idxOf name]? = some name :=
        List.getElem?_idxOf (h name (by simp [symbolNames]))
      simp only [toTree, ExprTree.evalWith, hget, Option.map_some, evalWith_symbol]
  | .constant _, _ => rfl
  | .binary _ lhs rhs, h => by
      have hl := evalWith_toTree sem dim σ fun name hname => h name (List.mem_append_left _ hname)
      have hr := evalWith_toTree sem dim σ fun name hname => h name (List.mem_append_right _ hname)
      simp only [toTree, ExprTree.evalWith, hl, hr, evalWith_binary]

theorem inScope_toTree {table : List Name} (htable : table.length < 2 ^ 32) :
    ∀ {expr : SymExpr}, (∀ name ∈ expr.symbolNames, name ∈ table) → expr.ConstantsFit →
      (expr.toTree table).InScope ⟨.plan, table.length, 0⟩
  | .symbol name, h, _ => by
      have hlt := List.idxOf_lt_length_of_mem (h name (by simp [symbolNames]))
      exact ⟨by simp, hlt, hlt.trans htable⟩
  | .constant _, _, hfit => hfit
  | .binary _ lhs rhs, h, hfit =>
      ⟨inScope_toTree htable (fun name hname => h name (List.mem_append_left _ hname)) hfit.1,
        inScope_toTree htable (fun name hname => h name (List.mem_append_right _ hname)) hfit.2⟩

end SymExpr

/-! ### Affine expressions -/

/-- The opcode of an affine operator; ceiling division has none. -/
def AffineExprKind.stackOp? : AffineExprKind → Option StackOp
  | .add => some .add
  | .mul => some .mul
  | .floorDiv => some .floorDiv
  | .mod => some .mod
  | .ceilDiv => none

namespace AffineExpr

/-- The expression over a symbol table, its symbol positions naming the entries
    of a list; none when an operation or a symbol has no wire form. -/
def toTree? (table symbols : List Name) : AffineExpr → Option ExprTree
  | .constant value => some (.const value)
  | .dim position => some (.dim position)
  | .symbol position => symbols[position]?.map fun name => .sym (table.idxOf name)
  | .binary kind lhs rhs =>
      kind.stackOp?.bind fun op => (lhs.toTree? table symbols).bind fun l =>
        (rhs.toTree? table symbols).map fun r => .node op l r

/-- The symbol names an affine expression uses, left to right. -/
def symbolNames (symbols : List Name) : AffineExpr → List Name
  | .constant _ | .dim _ => []
  | .symbol position => (symbols[position]?).toList
  | .binary _ lhs rhs => lhs.symbolNames symbols ++ rhs.symbolNames symbols

def opCount : AffineExpr → Nat
  | .dim _ | .symbol _ | .constant _ => 1
  | .binary _ lhs rhs => lhs.opCount + rhs.opCount + 1

def ConstantsFit : AffineExpr → Prop
  | .dim _ | .symbol _ => True
  | .constant value => FitsI64 value
  | .binary _ lhs rhs => lhs.ConstantsFit ∧ rhs.ConstantsFit

/-- The meaning of the affine operators given one for the stack machine. -/
def semOf (sem : StackOp → Int → Int → Option Int) (kind : AffineExprKind) (l r : Int) :
    Option Int :=
  kind.stackOp?.bind fun op => sem op l r

theorem toTree?_binary {table symbols : List Name} {kind : AffineExprKind} {lhs rhs : AffineExpr}
    {tree : ExprTree} :
    (binary kind lhs rhs).toTree? table symbols = some tree ↔
      ∃ op l r, kind.stackOp? = some op ∧ lhs.toTree? table symbols = some l ∧
        rhs.toTree? table symbols = some r ∧ tree = .node op l r := by
  simp only [toTree?, Option.bind_eq_some_iff, Option.map_eq_some_iff]
  constructor
  · rintro ⟨op, hop, l, hl, r, hr, rfl⟩
    exact ⟨op, l, r, hop, hl, hr, rfl⟩
  · rintro ⟨op, l, r, hop, hl, hr, rfl⟩
    exact ⟨op, hop, l, hl, r, hr, rfl⟩

/-- An expression whose operations and symbols all have a wire form. -/
def Encodable (symbols : List Name) : AffineExpr → Prop
  | .constant _ | .dim _ => True
  | .symbol position => position < symbols.length
  | .binary kind lhs rhs =>
      kind.stackOp?.isSome ∧ lhs.Encodable symbols ∧ rhs.Encodable symbols

theorem encodable_iff (table symbols : List Name) (expr : AffineExpr) :
    expr.Encodable symbols ↔ ∃ tree, expr.toTree? table symbols = some tree := by
  induction expr with
  | constant value => simp [Encodable, toTree?]
  | dim position => simp [Encodable, toTree?]
  | symbol position =>
      simp only [Encodable, toTree?, Option.map_eq_some_iff]
      constructor
      · intro h
        exact ⟨_, symbols[position], List.getElem?_eq_getElem h, rfl⟩
      · rintro ⟨_, name, hname, -⟩
        exact (List.getElem?_eq_some_iff.mp hname).1
  | binary kind lhs rhs ihl ihr =>
      rw [Encodable, ihl, ihr]
      constructor
      · rintro ⟨hop, ⟨l, hl⟩, r, hr⟩
        obtain ⟨op, hop⟩ := Option.isSome_iff_exists.mp hop
        exact ⟨.node op l r, toTree?_binary.mpr ⟨op, l, r, hop, hl, hr, rfl⟩⟩
      · rintro ⟨tree, htree⟩
        obtain ⟨op, l, r, hop, hl, hr, -⟩ := toTree?_binary.mp htree
        exact ⟨by rw [hop]; rfl, ⟨l, hl⟩, r, hr⟩

theorem length_stream {table symbols : List Name} :
    ∀ {expr : AffineExpr} {tree : ExprTree}, expr.toTree? table symbols = some tree →
      tree.stream.length = expr.opCount
  | .constant _, _, h => by cases h; rfl
  | .dim _, _, h => by cases h; rfl
  | .symbol _, _, h => by
      obtain ⟨name, _, rfl⟩ := Option.map_eq_some_iff.mp h
      rfl
  | .binary .., _, h => by
      obtain ⟨op, l, r, _, hl, hr, rfl⟩ := toTree?_binary.mp h
      simp only [ExprTree.stream, opCount, List.length_append, length_stream hl,
        length_stream hr, List.length_cons, List.length_nil]

/-- In a scope where dimensions are legal, and symbols too unless there are none. -/
theorem inScope_toTree? {table symbols : List Name} {context : ExprContext} {numDims : Nat}
    (htable : table.length < 2 ^ 32) (hdims : numDims < 2 ^ 32) (hplan : context ≠ .plan)
    (hinverse : context = .inverse → symbols = []) {numSymbols : Nat} :
    ∀ {expr : AffineExpr} {tree : ExprTree}, expr.toTree? table symbols = some tree →
      expr.InRange numDims numSymbols → (∀ name ∈ expr.symbolNames symbols, name ∈ table) →
      expr.ConstantsFit → tree.InScope ⟨context, table.length, numDims⟩
  | .constant _, _, h, _, _, hfit => by
      cases h
      exact hfit
  | .dim _, _, h, hrange, _, _ => by
      cases h
      exact ⟨hplan, hrange, hrange.trans hdims⟩
  | .symbol position, _, h, _, hnames, _ => by
      obtain ⟨name, hname, rfl⟩ := Option.map_eq_some_iff.mp h
      have hlt := List.idxOf_lt_length_of_mem (hnames name (by simp [symbolNames, hname]))
      refine ⟨fun hcontext => ?_, hlt, hlt.trans htable⟩
      rw [hinverse hcontext] at hname
      cases hname
  | .binary _ lhs rhs, _, h, hrange, hnames, hfit => by
      obtain ⟨op, l, r, _, hl, hr, rfl⟩ := toTree?_binary.mp h
      exact ⟨inScope_toTree? htable hdims hplan hinverse hl hrange.1
          (fun name hname => hnames name (List.mem_append_left _ hname)) hfit.1,
        inScope_toTree? htable hdims hplan hinverse hr hrange.2
          (fun name hname => hnames name (List.mem_append_right _ hname)) hfit.2⟩

end AffineExpr

end SymReloc
