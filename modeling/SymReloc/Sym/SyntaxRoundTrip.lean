import Mathlib.Data.Set.Basic
import SymReloc.Reloc.Idempotence
import SymReloc.Sym.Syntax

/-!
# Printed expressions parse back

The text of an expression lexes to the tokens `tokensOf` lists, and a parser that meets these
tokens builds the expression again: the printer writes parentheses exactly where the loops of
the parser would group otherwise, and no node of a normal expression simplifies.
-/

namespace SymReloc.Syntax

open SymExpr Text

/-! ### The tokens of a printed expression -/

def opToken : SymbolicExprOp → Token
  | .add => .plus
  | .sub => .minus
  | .mul => .star
  | .div => .keyword (ascii "floordiv")
  | .mod => .keyword (ascii "mod")

def constantTokens (value : Int) : List Token :=
  if value < 0 then [.minus, .integer value.natAbs] else [.integer value.natAbs]

def nameToken (name : Name) : Token := if isBareIdent name then .keyword name else .string name

/-- The tokens that the printer writes. -/
def tokensOf : SymExpr → Nat → Bool → List Token
  | .constant value, _, _ => constantTokens value
  | .symbol name, _, _ => [nameToken name]
  | .binary opcode lhs rhs, parentPrec, isRhs =>
      let prec := precedence opcode
      let body := tokensOf lhs prec false ++ opToken opcode :: tokensOf rhs prec true
      if needParens opcode parentPrec isRhs then .lparen :: (body ++ [.rparen]) else body

/-- The printed name reads as the symbol: as a keyword that is no boolean, or as a string literal
    without escapes. -/
def Printable (asm : AsmParser) (name : Name) : Prop :=
  (isBareIdent name = true → ∀ value, name ≠ booleanKeyword value) ∧
    (isBareIdent name = false → ∀ byte ∈ name, asm.stringByte byte = true)

section
variable {asm : AsmParser} (hasm : asm.Documented)
include hasm

theorem lex_operator (opcode : SymbolicExprOp) (text : Name) :
    asm.lex (32 :: opKeyword opcode ++ [32] ++ text) =
      (asm.lex text).map (opToken opcode :: ·) := by
  rw [List.append_assoc, List.singleton_append]
  cases opcode with
  | add =>
      show asm.lex (32 :: 43 :: 32 :: text) = _
      rw [hasm.space, hasm.plus, hasm.space]
      rfl
  | sub =>
      show asm.lex (32 :: 45 :: 32 :: text) = _
      rw [hasm.space, hasm.minus _ _ (by decide), hasm.space]
      rfl
  | mul =>
      show asm.lex (32 :: 42 :: 32 :: text) = _
      rw [hasm.space, hasm.star, hasm.space]
      rfl
  | div =>
      have hkeyword := hasm.keyword 102 [108, 111, 111, 114, 100, 105, 118] (32 :: text)
        (by decide) (by decide +kernel) (by decide) (Or.inl rfl)
      show asm.lex (32 :: (102 :: [108, 111, 111, 114, 100, 105, 118] ++ 32 :: text)) = _
      rw [hasm.space, hkeyword, hasm.space]
      rfl
  | mod =>
      have hkeyword := hasm.keyword 109 [111, 100] (32 :: text)
        (by decide) (by decide +kernel) (by decide) (Or.inl rfl)
      show asm.lex (32 :: (109 :: [111, 100] ++ 32 :: text)) = _
      rw [hasm.space, hkeyword, hasm.space]
      rfl

theorem lex_decimal (value : Int) {text : Name} (htext : Delimited text) :
    asm.lex (decimal value ++ text) = (asm.lex text).map (constantTokens value ++ ·) := by
  unfold decimal constantTokens
  split
  · obtain ⟨digit, rest, hdigits⟩ := List.exists_cons_of_ne_nil (digits_ne_nil value.natAbs)
    have hdigit : digit ≠ 62 := by
      rintro rfl
      exact absurd (isDigit_of_mem_digits (hdigits ▸ List.mem_cons_self)) (by decide)
    have hinteger := hasm.integer value.natAbs text htext
    rw [hdigits] at hinteger ⊢
    rw [List.cons_append, List.cons_append, hasm.minus _ _ hdigit, ← List.cons_append, hinteger,
      Option.map_map]
    rfl
  · rw [hasm.integer _ _ htext]
    rfl

theorem lex_name {name : Name} (hname : Printable asm name) {text : Name}
    (htext : Delimited text) :
    asm.lex ((if isBareIdent name then name else quoted name) ++ text) =
      (asm.lex text).map (nameToken name :: ·) := by
  unfold nameToken
  by_cases hbare : isBareIdent name = true
  · rw [if_pos hbare, if_pos hbare]
    cases name with
    | nil => simp [isBareIdent] at hbare
    | cons first rest =>
        have hbare' := hbare
        simp only [isBareIdent, Bool.and_eq_true, Bool.or_eq_true, beq_iff_eq, List.all_cons,
          List.all_eq_true] at hbare
        obtain ⟨-, hfirst, -, hrest⟩ := hbare
        exact hasm.keyword first rest text hfirst hrest (hname.1 hbare') htext
  · rw [if_neg hbare, if_neg hbare]
    exact hasm.string name text (hname.2 (by simpa using hbare))

/-- A printed expression lexes to its tokens. -/
theorem lex_printExprImpl {expr : SymExpr} (hnames : ∀ name ∈ expr.symbolNames, Printable asm name)
    (parentPrec : Nat) (isRhs : Bool) {text : Name} (htext : Delimited text) :
    asm.lex (printExprImpl expr parentPrec isRhs ++ text) =
      (asm.lex text).map (tokensOf expr parentPrec isRhs ++ ·) := by
  induction expr generalizing parentPrec isRhs text with
  | symbol name => exact lex_name hasm (hnames name (by simp [symbolNames])) htext
  | constant value => exact lex_decimal hasm value htext
  | binary opcode lhs rhs ihl ihr =>
      have hl := ihl fun name hname => hnames name (List.mem_append_left _ hname)
      have hr := ihr fun name hname => hnames name (List.mem_append_right _ hname)
      have hbody : ∀ {text : Name}, Delimited text →
          asm.lex (printExprImpl lhs (precedence opcode) false ++
              (32 :: opKeyword opcode ++ [32]) ++ printExprImpl rhs (precedence opcode) true ++
              text) =
            (asm.lex text).map ((tokensOf lhs (precedence opcode) false ++ opToken opcode ::
              tokensOf rhs (precedence opcode) true) ++ ·) := by
        intro text htext
        have hspaced : Delimited (32 :: opKeyword opcode ++ [32] ++
            (printExprImpl rhs (precedence opcode) true ++ text)) := Or.inl rfl
        rw [List.append_assoc, List.append_assoc, hl _ _ hspaced, lex_operator hasm,
          hr _ _ htext]
        simp only [Option.map_map, Function.comp_def, List.append_assoc, List.cons_append]
      simp only [printExprImpl, tokensOf]
      split
      · have hclosed : Delimited (41 :: text) := Or.inr rfl
        rw [List.cons_append, hasm.lparen, List.append_assoc, List.singleton_append,
          hbody hclosed, hasm.rparen]
        simp only [Option.map_map, Function.comp_def, List.append_assoc, List.cons_append,
          List.nil_append]
      · exact hbody htext

end

/-! ### Parsing the tokens -/

section
variable (w : Int → Int) (asm : AsmParser)

/-- No loop of a term goes on here. -/
def EndsTerm : List Token → Prop
  | [] => True
  | token :: _ => termOperator token = none

/-- No loop of an expression goes on here. -/
def EndsExpr : List Token → Prop
  | [] => True
  | token :: _ => termOperator token = none ∧ exprOperator token = none

variable {w asm} in
theorem parseTermLoop_of_ends {fuel : Nat} (hfuel : 0 < fuel) {lhs : SymExpr} {rest : List Token}
    (h : EndsTerm rest) : parseTermLoop w asm fuel lhs rest = some (lhs, rest) := by
  obtain ⟨fuel, rfl⟩ : ∃ n, fuel = n + 1 := ⟨fuel - 1, by omega⟩
  cases rest with
  | nil => rfl
  | cons token rest =>
      have hnone : termOperator token = none := h
      simp only [parseTermLoop, hnone]

variable {w asm} in
theorem parseExprLoop_of_ends {fuel : Nat} (hfuel : 0 < fuel) {lhs : SymExpr} {rest : List Token}
    (h : EndsExpr rest) : parseExprLoop w asm fuel lhs rest = some (lhs, rest) := by
  obtain ⟨fuel, rfl⟩ : ∃ n, fuel = n + 1 := ⟨fuel - 1, by omega⟩
  cases rest with
  | nil => rfl
  | cons token rest =>
      have hnone : exprOperator token = none := h.2
      simp only [parseExprLoop, hnone]

/-- What the parser makes of the three forms of an expression: as a factor, at the head of a
    term's loop, and at the head of an expression's loop. -/
structure Parses (expr : SymExpr) : Prop where
  factor : ∀ rest fuel, 3 * (tokensOf expr 2 true ++ rest).length + 1 ≤ fuel →
    parseFactor w asm fuel (tokensOf expr 2 true ++ rest) = some (expr, rest)
  term : ∀ rest fuel, 3 * (tokensOf expr 2 false ++ rest).length + 2 ≤ fuel →
    ∃ left, 3 * rest.length + 1 ≤ left ∧ parseTerm w asm fuel (tokensOf expr 2 false ++ rest) =
      parseTermLoop w asm left expr rest
  expr : ∀ rest fuel, EndsTerm rest → 3 * (tokensOf expr 0 false ++ rest).length + 3 ≤ fuel →
    ∃ left, 3 * rest.length + 1 ≤ left ∧ parseExprImpl w asm fuel (tokensOf expr 0 false ++ rest) =
      parseExprLoop w asm left expr rest

variable {w asm} {expr : SymExpr}

/-- A factor heads a term. -/
theorem parseTerm_of_factor {tokens rest : List Token} {fuel : Nat}
    (hfactor : ∀ fuel, 3 * (tokens ++ rest).length + 1 ≤ fuel →
      parseFactor w asm fuel (tokens ++ rest) = some (expr, rest))
    (hfuel : 3 * (tokens ++ rest).length + 2 ≤ fuel) :
    ∃ left, 3 * rest.length + 1 ≤ left ∧
      parseTerm w asm fuel (tokens ++ rest) = parseTermLoop w asm left expr rest := by
  obtain ⟨fuel, rfl⟩ : ∃ n, fuel = n + 1 := ⟨fuel - 1, by omega⟩
  refine ⟨fuel, ?_, ?_⟩
  · rw [List.length_append] at hfuel
    omega
  · rw [parseTerm, hfactor fuel (by omega)]
    rfl

/-- A term that ends heads an expression. -/
theorem parseExprImpl_of_term {tokens rest : List Token} {fuel : Nat} (hends : EndsTerm rest)
    (hterm : ∀ fuel, 3 * (tokens ++ rest).length + 2 ≤ fuel → ∃ left, 3 * rest.length + 1 ≤ left ∧
      parseTerm w asm fuel (tokens ++ rest) = parseTermLoop w asm left expr rest)
    (hfuel : 3 * (tokens ++ rest).length + 3 ≤ fuel) :
    ∃ left, 3 * rest.length + 1 ≤ left ∧
      parseExprImpl w asm fuel (tokens ++ rest) = parseExprLoop w asm left expr rest := by
  obtain ⟨fuel, rfl⟩ : ∃ n, fuel = n + 1 := ⟨fuel - 1, by omega⟩
  obtain ⟨left, hleft, hrun⟩ := hterm fuel (by omega)
  refine ⟨fuel, ?_, ?_⟩
  · rw [List.length_append] at hfuel
    omega
  · rw [parseExprImpl, hrun, parseTermLoop_of_ends (by omega) hends]
    rfl

/-- An expression in parentheses is a factor. -/
theorem parseFactor_of_parens {tokens rest : List Token} {fuel : Nat}
    (hexpr : ∀ fuel, 3 * (tokens ++ .rparen :: rest).length + 3 ≤ fuel →
      ∃ left, 3 * (.rparen :: rest : List Token).length + 1 ≤ left ∧
        parseExprImpl w asm fuel (tokens ++ .rparen :: rest) =
          parseExprLoop w asm left expr (.rparen :: rest))
    (hfuel : 3 * (Token.lparen :: (tokens ++ [.rparen]) ++ rest).length + 1 ≤ fuel) :
    parseFactor w asm fuel (.lparen :: (tokens ++ [.rparen]) ++ rest) = some (expr, rest) := by
  obtain ⟨fuel, rfl⟩ : ∃ n, fuel = n + 1 := ⟨fuel - 1, by omega⟩
  simp only [List.length_append, List.length_cons, List.length_nil, List.cons_append] at hfuel hexpr
  obtain ⟨left, hleft, hrun⟩ := hexpr fuel (by omega)
  rw [List.cons_append, List.append_assoc, List.singleton_append, parseFactor, hrun,
    parseExprLoop_of_ends (by omega) (show EndsExpr (.rparen :: rest) from ⟨rfl, rfl⟩)]

/-- A token that is a factor by itself gives all three forms. -/
theorem Parses.of_factor (hsame : ∀ parentPrec isRhs, tokensOf expr parentPrec isRhs =
      tokensOf expr 2 true)
    (hfactor : ∀ rest fuel, 3 * (tokensOf expr 2 true ++ rest).length + 1 ≤ fuel →
      parseFactor w asm fuel (tokensOf expr 2 true ++ rest) = some (expr, rest)) :
    Parses w asm expr where
  factor := hfactor
  term rest fuel hfuel := by
    rw [hsame 2 false] at hfuel ⊢
    exact parseTerm_of_factor (hfactor rest) hfuel
  expr rest fuel hends hfuel := by
    rw [hsame 0 false] at hfuel ⊢
    exact parseExprImpl_of_term hends (fun fuel => parseTerm_of_factor (hfactor rest)) hfuel

/-! ### Operators -/

theorem tokensOf_term {opcode : SymbolicExprOp} {lhs rhs : SymExpr}
    (hprec : precedence opcode = 2) :
    tokensOf (.binary opcode lhs rhs) 2 false =
      tokensOf lhs 2 false ++ opToken opcode :: tokensOf rhs 2 true := by
  simp [tokensOf, needParens, hprec]

theorem tokensOf_expr {opcode : SymbolicExprOp} {lhs rhs : SymExpr} :
    tokensOf (.binary opcode lhs rhs) 0 false = tokensOf lhs (precedence opcode) false ++
      opToken opcode :: tokensOf rhs (precedence opcode) true := by
  simp [tokensOf, needParens]

theorem tokensOf_factor {opcode : SymbolicExprOp} {lhs rhs : SymExpr} :
    tokensOf (.binary opcode lhs rhs) 2 true =
      .lparen :: (tokensOf (.binary opcode lhs rhs) 0 false ++ [.rparen]) := by
  cases opcode <;> simp [tokensOf, needParens, precedence]

/-- On the right of a sum an expression is written as on the left of a product. -/
theorem tokensOf_one_true (expr : SymExpr) : tokensOf expr 1 true = tokensOf expr 2 false := by
  cases expr with
  | symbol name => rfl
  | constant value => rfl
  | binary opcode lhs rhs => cases opcode <;> simp [tokensOf, needParens, precedence]

theorem tokensOf_one_false (expr : SymExpr) : tokensOf expr 1 false = tokensOf expr 0 false := by
  cases expr with
  | symbol name => rfl
  | constant value => rfl
  | binary opcode lhs rhs => cases opcode <;> simp [tokensOf, needParens, precedence]

theorem getSimplifiedBinaryExpr_of_normal {opcode : SymbolicExprOp} {lhs rhs : SymExpr}
    (h : (SymExpr.binary opcode lhs rhs).Normal w) :
    getSimplifiedBinaryExpr w opcode lhs rhs = .binary opcode lhs rhs := by
  rw [getSimplifiedBinaryExpr, h.2.2]
  rfl

/-- The operators of a term: the loop takes the factor on the right and goes on. -/
theorem Parses.of_term {opcode : SymbolicExprOp} {lhs rhs : SymExpr}
    (hprec : precedence opcode = 2) (hnormal : (SymExpr.binary opcode lhs rhs).Normal w)
    (hl : Parses w asm lhs) (hr : Parses w asm rhs) :
    Parses w asm (.binary opcode lhs rhs) := by
  have hoperator : termOperator (opToken opcode) = some opcode := by
    cases opcode <;> first | rfl | cases hprec
  have hterm : ∀ rest fuel,
      3 * (tokensOf (.binary opcode lhs rhs) 2 false ++ rest).length + 2 ≤ fuel →
      ∃ left, 3 * rest.length + 1 ≤ left ∧
        parseTerm w asm fuel (tokensOf (.binary opcode lhs rhs) 2 false ++ rest) =
          parseTermLoop w asm left (.binary opcode lhs rhs) rest := by
    intro rest fuel hfuel
    rw [tokensOf_term hprec, List.append_assoc, List.cons_append] at hfuel ⊢
    obtain ⟨left, hleft, hrun⟩ := hl.term _ fuel hfuel
    obtain ⟨left, rfl⟩ : ∃ n, left = n + 1 := ⟨left - 1, by omega⟩
    rw [List.length_cons] at hleft
    refine ⟨left, ?_, ?_⟩
    · rw [List.length_append] at hleft
      omega
    · rw [hrun, parseTermLoop, hoperator]
      simp only [hr.factor rest left (by omega), Option.bind_some,
        getSimplifiedBinaryExpr_of_normal hnormal]
  have hexpr : ∀ rest fuel, EndsTerm rest →
      3 * (tokensOf (.binary opcode lhs rhs) 0 false ++ rest).length + 3 ≤ fuel →
      ∃ left, 3 * rest.length + 1 ≤ left ∧
        parseExprImpl w asm fuel (tokensOf (.binary opcode lhs rhs) 0 false ++ rest) =
          parseExprLoop w asm left (.binary opcode lhs rhs) rest := by
    intro rest fuel hends hfuel
    rw [tokensOf_expr, hprec, ← tokensOf_term hprec] at hfuel ⊢
    exact parseExprImpl_of_term hends (hterm rest) hfuel
  refine ⟨fun rest fuel hfuel => ?_, hterm, hexpr⟩
  rw [tokensOf_factor] at hfuel ⊢
  exact parseFactor_of_parens (fun fuel => hexpr _ fuel rfl) hfuel

/-- The operators of an expression: the loop takes the term on the right and goes on. -/
theorem Parses.of_expr {opcode : SymbolicExprOp} {lhs rhs : SymExpr}
    (hprec : precedence opcode = 1) (hnormal : (SymExpr.binary opcode lhs rhs).Normal w)
    (hl : Parses w asm lhs) (hr : Parses w asm rhs) :
    Parses w asm (.binary opcode lhs rhs) := by
  have hoperator : exprOperator (opToken opcode) = some opcode ∧
      termOperator (opToken opcode) = none := by
    cases opcode <;> first | exact ⟨rfl, rfl⟩ | cases hprec
  have hexpr : ∀ rest fuel, EndsTerm rest →
      3 * (tokensOf (.binary opcode lhs rhs) 0 false ++ rest).length + 3 ≤ fuel →
      ∃ left, 3 * rest.length + 1 ≤ left ∧
        parseExprImpl w asm fuel (tokensOf (.binary opcode lhs rhs) 0 false ++ rest) =
          parseExprLoop w asm left (.binary opcode lhs rhs) rest := by
    intro rest fuel hends hfuel
    rw [tokensOf_expr, hprec, tokensOf_one_true, tokensOf_one_false, List.append_assoc,
      List.cons_append] at hfuel ⊢
    have hloop : EndsTerm (opToken opcode :: (tokensOf rhs 2 false ++ rest)) := hoperator.2
    obtain ⟨left, hleft, hrun⟩ := hl.expr _ fuel hloop hfuel
    obtain ⟨left, rfl⟩ : ∃ n, left = n + 1 := ⟨left - 1, by omega⟩
    rw [List.length_cons] at hleft
    obtain ⟨after, hafter, hright⟩ := hr.term rest left (by omega)
    refine ⟨left, ?_, ?_⟩
    · rw [List.length_append] at hleft
      omega
    · rw [hrun, parseExprLoop, hoperator.1]
      simp only [hright, parseTermLoop_of_ends (by omega : 0 < after) hends, Option.bind_some,
        getSimplifiedBinaryExpr_of_normal hnormal]
  have hfactor : ∀ rest fuel,
      3 * (tokensOf (.binary opcode lhs rhs) 2 true ++ rest).length + 1 ≤ fuel →
      parseFactor w asm fuel (tokensOf (.binary opcode lhs rhs) 2 true ++ rest) =
        some (.binary opcode lhs rhs, rest) := by
    intro rest fuel hfuel
    rw [tokensOf_factor] at hfuel ⊢
    exact parseFactor_of_parens (fun fuel => hexpr _ fuel rfl) hfuel
  refine ⟨hfactor, fun rest fuel hfuel => ?_, hexpr⟩
  have hsame : tokensOf (.binary opcode lhs rhs) 2 false =
      tokensOf (.binary opcode lhs rhs) 2 true := by
    simp [tokensOf, needParens, hprec]
  rw [hsame] at hfuel ⊢
  exact parseTerm_of_factor (hfactor rest) hfuel

theorem parses_constant {value : Int} (hfits : FitsI64 value) : Parses w asm (.constant value) := by
  refine .of_factor (fun _ _ => rfl) fun rest fuel hfuel => ?_
  obtain ⟨fuel, rfl⟩ : ∃ n, fuel = n + 1 := ⟨fuel - 1, by omega⟩
  simp only [tokensOf, constantTokens]
  split
  · have habs : -(value.natAbs : Int) = value := by omega
    simp only [List.cons_append, List.nil_append, parseFactor, literal, habs, if_pos hfits]
  · have habs : (value.natAbs : Int) = value := by omega
    simp only [List.cons_append, List.nil_append, parseFactor, literal, habs, if_pos hfits]

theorem parses_symbol (name : Name) : Parses w asm (.symbol name) := by
  refine .of_factor (fun _ _ => rfl) fun rest fuel hfuel => ?_
  obtain ⟨fuel, rfl⟩ : ∃ n, fuel = n + 1 := ⟨fuel - 1, by omega⟩
  simp only [tokensOf, nameToken]
  split
  · rename_i hbare
    have hplain : isOperatorKeyword name = false := by
      simp only [isBareIdent, Bool.and_eq_true, Bool.not_eq_true'] at hbare
      exact hbare.1
    simp only [List.cons_append, List.nil_append, parseFactor, hplain]
    rfl
  · rfl

/-- The parser builds a normal expression again from its tokens. -/
theorem parses_of_normal {expr : SymExpr} (hnormal : expr.Normal w) (hfits : expr.ConstantsFit) :
    Parses w asm expr := by
  induction expr with
  | symbol name => exact parses_symbol name
  | constant value => exact parses_constant hfits
  | binary opcode lhs rhs ihl ihr =>
      have hl := ihl hnormal.1 hfits.1
      have hr := ihr hnormal.2.1 hfits.2
      cases opcode with
      | add => exact .of_expr rfl hnormal hl hr
      | sub => exact .of_expr rfl hnormal hl hr
      | mul => exact .of_term rfl hnormal hl hr
      | div => exact .of_term rfl hnormal hl hr
      | mod => exact .of_term rfl hnormal hl hr

theorem parseSymExpr_printSymExpr (hasm : asm.Documented) {expr : SymExpr}
    (hnormal : expr.Normal w) (hfits : expr.ConstantsFit)
    (hnames : ∀ name ∈ expr.symbolNames, Printable asm name) :
    parseSymExpr w asm (printSymExpr expr) = some (expr, []) := by
  have hend : Delimited [] := trivial
  have hlex := lex_printExprImpl hasm hnames 0 false hend
  rw [List.append_nil, hasm.nil, Option.map_some, List.append_nil] at hlex
  have hparses : Parses w asm expr := parses_of_normal hnormal hfits
  obtain ⟨left, hleft, hrun⟩ := hparses.expr [] _ trivial (le_refl _)
  rw [parseSymExpr, printSymExpr, hlex, Option.bind_some]
  rw [List.append_nil] at hrun
  rw [hrun, parseExprLoop_of_ends (by omega) (show EndsExpr [] from trivial)]

/-! ### Names that do not survive -/

theorem symbolNames_identityRule {opcode : SymbolicExprOp} {lhs rhs simplified : SymExpr}
    (h : identityRule opcode lhs rhs = some simplified) {name : Name}
    (hname : name ∈ simplified.symbolNames) : name ∈ lhs.symbolNames ++ rhs.symbolNames := by
  rcases identityRule_cases h with rfl | rfl | ⟨c, rfl⟩
  · exact List.mem_append_left _ hname
  · exact List.mem_append_right _ hname
  · cases hname

theorem symbolNames_simplifyBinaryExpr {opcode : SymbolicExprOp} {lhs rhs simplified : SymExpr}
    (h : simplifyBinaryExpr w opcode lhs rhs = some simplified) {name : Name}
    (hname : name ∈ simplified.symbolNames) : name ∈ lhs.symbolNames ++ rhs.symbolNames := by
  fun_induction simplifyBinaryExpr w opcode lhs rhs generalizing simplified with
  | case1 opcode l r =>
      obtain ⟨c, -, rfl⟩ := Option.map_eq_some_iff.1 h
      cases hname
  | case2 opcode inner x c₁ c₂ expr' hrule =>
      cases h
      exact symbolNames_identityRule hrule hname
  | case3 opcode inner x c₁ c₂ hrule op c hop ih =>
      cases h
      cases hsimplified : simplifyBinaryExpr w op x (.constant c) with
      | none =>
          rw [hsimplified, Option.getD_none] at hname
          simpa [symbolNames] using hname
      | some again =>
          rw [hsimplified, Option.getD_some] at hname
          simpa [symbolNames] using ih hsimplified hname
  | case4 => cases h
  | case5 opcode lhs rhs => exact symbolNames_identityRule h hname

theorem symbolNames_getSimplifiedBinaryExpr {opcode : SymbolicExprOp} {lhs rhs : SymExpr}
    {name : Name} (hname : name ∈ (getSimplifiedBinaryExpr w opcode lhs rhs).symbolNames) :
    name ∈ lhs.symbolNames ++ rhs.symbolNames := by
  unfold getSimplifiedBinaryExpr at hname
  cases hsimplified : simplifyBinaryExpr w opcode lhs rhs with
  | none => rwa [hsimplified] at hname
  | some simplified =>
      rw [hsimplified] at hname
      exact symbolNames_simplifyBinaryExpr hsimplified hname

/-- A name that one of the tokens spells. -/
def Spelled (tokens : List Token) (name : Name) : Prop :=
  .string name ∈ tokens ∨ .keyword name ∈ tokens

/-- The parser spells the symbols of its result with the tokens it took. -/
def Spells (tokens : List Token) (result : Option (SymExpr × List Token)) : Prop :=
  ∀ expr rest, result = some (expr, rest) →
    (∀ name ∈ expr.symbolNames, Spelled tokens name) ∧ ∀ token ∈ rest, token ∈ tokens

theorem Spelled.mono {tokens tokens' : List Token} (h : ∀ token ∈ tokens, token ∈ tokens')
    {name : Name} (hname : Spelled tokens name) : Spelled tokens' name :=
  hname.imp (h _) (h _)

/-- One round of a loop: an operator, an operand and the next round. -/
theorem spells_round {token : Token} {rest : List Token} {lhs : SymExpr} {opcode : SymbolicExprOp}
    {operand : Option (SymExpr × List Token)}
    {next : SymExpr → List Token → Option (SymExpr × List Token)} (hoperand : Spells rest operand)
    (hnext : ∀ lhs tokens expr after, next lhs tokens = some (expr, after) →
      (∀ name ∈ expr.symbolNames, name ∈ lhs.symbolNames ∨ Spelled tokens name) ∧
        ∀ token ∈ after, token ∈ tokens) {expr : SymExpr} {after : List Token}
    (h : (operand.bind fun (rhs, rest) => next (getSimplifiedBinaryExpr w opcode lhs rhs) rest) =
      some (expr, after)) :
    (∀ name ∈ expr.symbolNames, name ∈ lhs.symbolNames ∨ Spelled (token :: rest) name) ∧
      ∀ t ∈ after, t ∈ token :: rest := by
  obtain ⟨⟨rhs, middle⟩, hrun, hloop⟩ := Option.bind_eq_some_iff.1 h
  obtain ⟨hrhs, hmiddle⟩ := hoperand rhs middle hrun
  obtain ⟨hnames, hafter⟩ := hnext _ _ _ _ hloop
  have hweaken : ∀ t ∈ rest, t ∈ token :: rest := fun t ht => List.mem_cons_of_mem _ ht
  refine ⟨fun name hname => ?_, fun t ht => hweaken t (hmiddle t (hafter t ht))⟩
  rcases hnames name hname with hsimplified | hspelled
  · rcases List.mem_append.1 (symbolNames_getSimplifiedBinaryExpr hsimplified) with hl | hr
    · exact Or.inl hl
    · exact Or.inr ((hrhs name hr).mono hweaken)
  · exact Or.inr (hspelled.mono fun t ht => hweaken t (hmiddle t ht))

/-- A head and its loop. -/
theorem spells_bind {tokens : List Token} {head : Option (SymExpr × List Token)}
    {next : SymExpr → List Token → Option (SymExpr × List Token)} (hhead : Spells tokens head)
    (hnext : ∀ lhs tokens expr after, next lhs tokens = some (expr, after) →
      (∀ name ∈ expr.symbolNames, name ∈ lhs.symbolNames ∨ Spelled tokens name) ∧
        ∀ token ∈ after, token ∈ tokens) :
    Spells tokens (head.bind fun (lhs, rest) => next lhs rest) := by
  intro expr after h
  obtain ⟨⟨lhs, middle⟩, hrun, hloop⟩ := Option.bind_eq_some_iff.1 h
  obtain ⟨hlhs, hmiddle⟩ := hhead lhs middle hrun
  obtain ⟨hnames, hafter⟩ := hnext _ _ _ _ hloop
  refine ⟨fun name hname => ?_, fun t ht => hmiddle t (hafter t ht)⟩
  rcases hnames name hname with hl | hspelled
  · exact hlhs name hl
  · exact hspelled.mono hmiddle

theorem literal_eq_some {value : Int} {rest after : List Token} {expr : SymExpr}
    (h : literal value rest = some (expr, after)) :
    FitsI64 value ∧ expr = .constant value ∧ after = rest := by
  unfold literal at h
  split at h
  · cases h
    exact ⟨‹_›, rfl, rfl⟩
  · cases h

/-- A loop spells what it adds to its first operand. -/
def SpellsLoop (loop : SymExpr → List Token → Option (SymExpr × List Token)) : Prop :=
  ∀ lhs tokens expr after, loop lhs tokens = some (expr, after) →
    (∀ name ∈ expr.symbolNames, name ∈ lhs.symbolNames ∨ Spelled tokens name) ∧
      ∀ token ∈ after, token ∈ tokens

variable (hasm : asm.Documented)
include hasm

theorem spells_parseFactor {fuel : Nat}
    (hexpr : ∀ tokens, Spells tokens (parseExprImpl w asm fuel tokens))
    (tokens : List Token) : Spells tokens (parseFactor w asm (fuel + 1) tokens) := by
  intro expr after h
  unfold parseFactor at h
  split at h
  · obtain ⟨-, hsame⟩ := literal_eq_some h
    obtain ⟨rfl, rfl⟩ := hsame
    exact ⟨fun name hname => absurd hname List.not_mem_nil, fun t ht => List.mem_cons_of_mem _ ht⟩
  · obtain ⟨-, hsame⟩ := literal_eq_some h
    obtain ⟨rfl, rfl⟩ := hsame
    exact ⟨fun name hname => absurd hname List.not_mem_nil,
      fun t ht => List.mem_cons_of_mem _ (List.mem_cons_of_mem _ ht)⟩
  · cases h
  · cases h
    exact ⟨fun name hname => absurd hname List.not_mem_nil, fun t ht => List.mem_cons_of_mem _ ht⟩
  · cases h
    refine ⟨fun name hname => ?_, fun t ht => List.mem_cons_of_mem _ ht⟩
    rw [List.mem_singleton.1 hname]
    exact Or.inl List.mem_cons_self
  · split at h
    · rename_i inner rest hinner
      cases h
      obtain ⟨hnames, hafter⟩ := hexpr _ _ _ hinner
      exact ⟨fun name hname => (hnames name hname).mono fun t ht => List.mem_cons_of_mem _ ht,
        fun t ht => List.mem_cons_of_mem _ (hafter t (List.mem_cons_of_mem _ ht))⟩
    · cases h
  · split at h
    · cases h
    · cases h
      refine ⟨fun name hname => ?_, fun t ht => List.mem_cons_of_mem _ ht⟩
      rw [List.mem_singleton.1 hname]
      exact Or.inr List.mem_cons_self
  · split at h
    · rename_i hattribute
      cases h
      exact hasm.attributes _ _ _ hattribute
    · cases h

/-- Every result spells its symbols, with any fuel. -/
theorem spells_parse (fuel : Nat) :
    (∀ tokens, Spells tokens (parseFactor w asm fuel tokens)) ∧
    (∀ tokens, Spells tokens (parseTerm w asm fuel tokens)) ∧
    SpellsLoop (parseTermLoop w asm fuel) ∧
    (∀ tokens, Spells tokens (parseExprImpl w asm fuel tokens)) ∧
    SpellsLoop (parseExprLoop w asm fuel) := by
  induction fuel with
  | zero => exact ⟨nofun, nofun, nofun, nofun, nofun⟩
  | succ fuel ih =>
      obtain ⟨hfactor, hterm, htermLoop, hexpr, hexprLoop⟩ := ih
      refine ⟨spells_parseFactor hasm hexpr, fun tokens => ?_, ?_, fun tokens => ?_, ?_⟩
      · rw [parseTerm]
        exact spells_bind (hfactor tokens) htermLoop
      · intro lhs tokens expr after h
        unfold parseTermLoop at h
        split at h
        · cases h
          exact ⟨fun name hname => Or.inl hname, fun t ht => ht⟩
        · split at h
          · cases h
            exact ⟨fun name hname => Or.inl hname, fun t ht => ht⟩
          · exact spells_round (hfactor _) htermLoop h
      · rw [parseExprImpl]
        exact spells_bind (hterm tokens) hexprLoop
      · intro lhs tokens expr after h
        unfold parseExprLoop at h
        split at h
        · cases h
          exact ⟨fun name hname => Or.inl hname, fun t ht => ht⟩
        · split at h
          · cases h
            exact ⟨fun name hname => Or.inl hname, fun t ht => ht⟩
          · exact spells_round (hterm _) hexprLoop h

/-- A symbol that parses back has a printable name. -/
theorem printable_of_parseSymExpr {name : Name}
    (h : parseSymExpr w asm (printSymExpr (.symbol name)) = some (.symbol name, [])) :
    Printable asm name := by
  obtain ⟨tokens, hlex, hparse⟩ := Option.bind_eq_some_iff.1 h
  have hspelled := ((spells_parse hasm _).2.2.2.1 tokens _ _ hparse).1 name List.mem_cons_self
  simp only [printSymExpr, printExprImpl] at hlex
  constructor
  · intro hbare value hkeyword
    -- the text is the keyword of a boolean, which spells no name
    have hend : Delimited [] := trivial
    have hboolean := hasm.boolean value [] hend
    rw [hasm.nil, List.append_nil, ← hkeyword] at hboolean
    rw [if_pos hbare, hboolean] at hlex
    cases hlex
    rcases hspelled with hmem | hmem <;> simp at hmem
  · intro hbare
    by_contra hnot
    push Not at hnot
    obtain ⟨byte, hbyte, hstring⟩ := hnot
    rw [if_neg (by simp [hbare])] at hlex
    obtain ⟨hno, hno'⟩ := hasm.escaped name tokens ⟨byte, hbyte, by simpa using hstring⟩ hlex
    exact hspelled.elim hno hno'

/-- Expressions over a set of names survive printing and parsing exactly when every name does. -/
theorem parse_print_iff (names : Set Name) :
    (∀ expr : SymExpr, expr.Normal w → expr.ConstantsFit →
      (∀ name ∈ expr.symbolNames, name ∈ names) →
      parseSymExpr w asm (printSymExpr expr) = some (expr, [])) ↔
    ∀ name ∈ names, Printable asm name := by
  constructor
  · intro h name hname
    exact printable_of_parseSymExpr hasm (h (.symbol name) trivial trivial (by
      simpa [symbolNames] using hname))
  · intro hprintable expr hnormal hfits hnames
    exact parseSymExpr_printSymExpr hasm hnormal hfits fun name hname =>
      hprintable name (hnames name hname)

end

end SymReloc.Syntax
