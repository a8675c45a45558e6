import SymReloc.Sym.Simplify
import SymReloc.Text
import SymReloc.Wire.ExprTree

/-!
# The text of symbolic expressions

The printer and the parser of the compact expression syntax.  Both stand on the token syntax
of the compiler framework, which is a parameter here: `AsmParser` is what the parser is given,
and `AsmParser.Documented` what it relies on.
-/

namespace SymReloc.Syntax

open SymExpr Text

/-! ### Printing -/

/-- `precedence`. -/
def precedence : SymbolicExprOp → Nat
  | .add | .sub => 1
  | .mul | .div | .mod => 2

/-- `opKeyword`. -/
def opKeyword : SymbolicExprOp → Name
  | .add => ascii "+"
  | .sub => ascii "-"
  | .mul => ascii "*"
  | .div => ascii "floordiv"
  | .mod => ascii "mod"

/-- The keywords of operators. -/
def isOperatorKeyword (name : Name) : Bool :=
  name == ascii "floordiv" || name == ascii "div" || name == ascii "mod"

/-- `isBareIdent`: the name can print as a bare identifier and is no operator keyword. -/
def isBareIdent (name : Name) : Bool :=
  !isOperatorKeyword name &&
    match name with
    | [] => false
    | first :: rest => (isAlpha first || first == 95) && (first :: rest).all isWord

/-- The name between quotes, as it is. -/
def quoted (name : Name) : Name := 34 :: (name ++ [34])

def needParens (opcode : SymbolicExprOp) (parentPrec : Nat) (isRhs : Bool) : Bool :=
  precedence opcode < parentPrec || (isRhs && precedence opcode == parentPrec)

/-- `printExprImpl`. -/
def printExprImpl : SymExpr → Nat → Bool → Name
  | .constant value, _, _ => decimal value
  | .symbol name, _, _ => if isBareIdent name then name else quoted name
  | .binary opcode lhs rhs, parentPrec, isRhs =>
      let prec := precedence opcode
      let body := printExprImpl lhs prec false ++ (32 :: opKeyword opcode ++ [32]) ++
        printExprImpl rhs prec true
      if needParens opcode parentPrec isRhs then 40 :: (body ++ [41]) else body

/-- `printSymExpr`. -/
def printSymExpr (expr : SymExpr) : Name := printExprImpl expr 0 false

/-! ### Tokens -/

/-- The tokens the expression syntax is made of. -/
inductive Token where
  | integer (value : Nat)
  /-- The keywords `false` and `true`. -/
  | boolean (value : Bool)
  | string (value : Name)
  /-- Identifiers, integer types and all other keywords. -/
  | keyword (spelling : Name)
  | lparen
  | rparen
  | plus
  | minus
  | star
  | other (spelling : Name)
deriving DecidableEq, Repr

/-- What the framework gives the parser. -/
structure AsmParser where
  /-- The tokens of a text, or none if it is malformed. -/
  lex : Name → Option (List Token)
  /-- The bytes that stand for themselves in a string literal. -/
  stringByte : UInt8 → Bool
  /-- The integer that `parseOptionalInteger` reads from `false` and `true`. -/
  booleanValue : Bool → Int
  /-- `parseOptionalAttribute`: none if no attribute begins here, an inner none if it is
      malformed, and otherwise the expression, if it is one, with the tokens after it. -/
  parseOptionalAttribute : List Token → Option (Option (Option SymExpr × List Token))

/-! ### Parsing -/

section
variable (w : Int → Int) (asm : AsmParser)

/-- A literal that is no 64-bit integer is too large. -/
def literal (value : Int) (rest : List Token) : Option (SymExpr × List Token) :=
  if FitsI64 value then some (.constant value, rest) else none

def termOperator : Token → Option SymbolicExprOp
  | .star => some .mul
  | .keyword spelling =>
      if spelling = ascii "floordiv" ∨ spelling = ascii "div" then some .div
      else if spelling = ascii "mod" then some .mod
      else none
  | _ => none

def exprOperator : Token → Option SymbolicExprOp
  | .plus => some .add
  | .minus => some .sub
  | _ => none

mutual

/-- `parseFactor`. -/
def parseFactor : Nat → List Token → Option (SymExpr × List Token)
  | 0, _ => none
  | fuel + 1, tokens =>
      match tokens with
      | .integer value :: rest => literal value rest
      | .minus :: .integer value :: rest => literal (-value) rest
      | .minus :: _ => none
      | .boolean value :: rest => some (.constant (asm.booleanValue value), rest)
      | .string name :: rest => some (.symbol name, rest)
      | .lparen :: rest =>
          match parseExprImpl fuel rest with
          | some (inner, .rparen :: rest) => some (inner, rest)
          | _ => none
      | .keyword ident :: rest =>
          if isOperatorKeyword ident then none else some (.symbol ident, rest)
      | tokens =>
          match asm.parseOptionalAttribute tokens with
          | some (some (some expr, rest)) => some (expr, rest)
          | _ => none

/-- `parseTerm`: a factor, and its loop. -/
def parseTerm : Nat → List Token → Option (SymExpr × List Token)
  | 0, _ => none
  | fuel + 1, tokens =>
      (parseFactor fuel tokens).bind fun (lhs, rest) => parseTermLoop fuel lhs rest

def parseTermLoop : Nat → SymExpr → List Token → Option (SymExpr × List Token)
  | 0, _, _ => none
  | fuel + 1, lhs, tokens =>
      match tokens with
      | [] => some (lhs, [])
      | token :: rest =>
          match termOperator token with
          | none => some (lhs, token :: rest)
          | some opcode =>
              (parseFactor fuel rest).bind fun (rhs, rest) =>
                parseTermLoop fuel (getSimplifiedBinaryExpr w opcode lhs rhs) rest

/-- `parseExprImpl`: a term, and its loop. -/
def parseExprImpl : Nat → List Token → Option (SymExpr × List Token)
  | 0, _ => none
  | fuel + 1, tokens =>
      (parseTerm fuel tokens).bind fun (lhs, rest) => parseExprLoop fuel lhs rest

def parseExprLoop : Nat → SymExpr → List Token → Option (SymExpr × List Token)
  | 0, _, _ => none
  | fuel + 1, lhs, tokens =>
      match tokens with
      | [] => some (lhs, [])
      | token :: rest =>
          match exprOperator token with
          | none => some (lhs, token :: rest)
          | some opcode =>
              (parseTerm fuel rest).bind fun (rhs, rest) =>
                parseExprLoop fuel (getSimplifiedBinaryExpr w opcode lhs rhs) rest

end

/-- `parseSymExpr` on the tokens of a text; each token takes at most three calls. -/
def parseSymExpr (text : Name) : Option (SymExpr × List Token) :=
  (asm.lex text).bind fun tokens => parseExprImpl w asm (3 * tokens.length + 3) tokens

end

/-! ### What the parser relies on -/

/-- The text ends here, or goes on with a space or a closing parenthesis. -/
def Delimited : Name → Prop
  | [] => True
  | byte :: _ => byte = 32 ∨ byte = 41

/-- The keyword of a boolean. -/
def booleanKeyword (value : Bool) : Name := if value then ascii "true" else ascii "false"

/-- The lexical syntax of the framework, as far as printed expressions use it. -/
structure AsmParser.Documented (asm : AsmParser) : Prop where
  nil : asm.lex [] = some []
  space : ∀ text, asm.lex (32 :: text) = asm.lex text
  lparen : ∀ text, asm.lex (40 :: text) = (asm.lex text).map (.lparen :: ·)
  rparen : ∀ text, asm.lex (41 :: text) = (asm.lex text).map (.rparen :: ·)
  star : ∀ text, asm.lex (42 :: text) = (asm.lex text).map (.star :: ·)
  plus : ∀ text, asm.lex (43 :: text) = (asm.lex text).map (.plus :: ·)
  /-- A minus, unless an arrow begins. -/
  minus : ∀ byte text, byte ≠ 62 →
    asm.lex (45 :: byte :: text) = (asm.lex (byte :: text)).map (.minus :: ·)
  integer : ∀ value text, Delimited text →
    asm.lex (digits value ++ text) = (asm.lex text).map (.integer value :: ·)
  boolean : ∀ value text, Delimited text →
    asm.lex (booleanKeyword value ++ text) = (asm.lex text).map (.boolean value :: ·)
  keyword : ∀ first rest text, (isAlpha first = true ∨ first = 95) → (∀ b ∈ rest, isWord b = true) →
    (∀ value, first :: rest ≠ booleanKeyword value) → Delimited text →
    asm.lex (first :: rest ++ text) = (asm.lex text).map (.keyword (first :: rest) :: ·)
  string : ∀ name text, (∀ b ∈ name, asm.stringByte b = true) →
    asm.lex (quoted name ++ text) = (asm.lex text).map (.string name :: ·)
  /-- Other bytes are written as escapes: a name with one of them is no token of its plain
      quotation. -/
  escaped : ∀ name tokens, (∃ b ∈ name, asm.stringByte b = false) →
    asm.lex (quoted name) = some tokens → .string name ∉ tokens ∧ .keyword name ∉ tokens
  /-- The symbols of an attribute are spelled by its tokens. -/
  attributes : ∀ tokens expr rest,
    asm.parseOptionalAttribute tokens = some (some (some expr, rest)) →
    (∀ name ∈ expr.symbolNames, .string name ∈ tokens ∨ .keyword name ∈ tokens) ∧
      ∀ token ∈ rest, token ∈ tokens

end SymReloc.Syntax
