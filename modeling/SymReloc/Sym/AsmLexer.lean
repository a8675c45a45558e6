import Mathlib.Data.List.TakeWhile
import SymReloc.Sym.SyntaxRoundTrip

/-!
# A lexer with the documented syntax

The tokens of the framework that expressions use, with its string escapes.  It shows that what the
parser relies on can be had, and gives the failing names a concrete text.
-/

namespace SymReloc.Syntax

open SymExpr Text

/-! ### String literals -/

def hexValue (byte : UInt8) : Option UInt8 :=
  if isDigit byte then some (byte - 48)
  else if 65 ≤ byte ∧ byte ≤ 70 then some (byte - 55)
  else if 97 ≤ byte ∧ byte ≤ 102 then some (byte - 87)
  else none

/-- A byte that stands for itself: no quote, no backslash, no line break. -/
def literalByte (byte : UInt8) : Bool :=
  byte != 34 && byte != 92 && byte != 10 && byte != 11 && byte != 12

/-- The byte of a one-letter escape. -/
def escapeByte (byte : UInt8) : Option UInt8 :=
  if byte = 34 ∨ byte = 92 then some byte
  else if byte = 110 then some 10
  else if byte = 116 then some 9
  else none

/-- The value of a string literal after its opening quote, and the text after the closing one. -/
def lexString : Name → Option (Name × Name)
  | [] => none
  | byte :: rest =>
      if byte = 34 then some ([], rest)
      else if byte = 92 then
        match rest with
        | [] => none
        | first :: rest =>
            match escapeByte first with
            | some value => (lexString rest).map fun (values, rest) => (value :: values, rest)
            | none =>
                match rest with
                | [] => none
                | second :: rest =>
                    match hexValue first, hexValue second with
                    | some hi, some lo =>
                        (lexString rest).map fun (values, rest) => ((hi * 16 + lo) :: values, rest)
                    | _, _ => none
      else if literalByte byte then
        (lexString rest).map fun (values, rest) => (byte :: values, rest)
      else none

/-- A literal is at least as long as its value, and as long only without escapes. -/
theorem lexString_length {text value rest : Name} (h : lexString text = some (value, rest)) :
    value.length + 1 + rest.length ≤ text.length ∧
      (value.length + 1 + rest.length = text.length →
        text = value ++ 34 :: rest ∧ ∀ byte ∈ value, literalByte byte = true) := by
  fun_induction lexString text generalizing value rest with
  | case1 => cases h
  | case2 tail =>
      cases h
      exact ⟨by simp; omega, fun _ => ⟨rfl, by simp⟩⟩
  | case3 => cases h
  | case4 first tail value' hescape hquote ih =>
      obtain ⟨⟨values, after⟩, hrun, hsame⟩ := Option.map_eq_some_iff.1 h
      cases hsame
      have hle := (ih hrun).1
      simp only [List.length_cons]
      exact ⟨by omega, fun heq => by omega⟩
  | case5 => cases h
  | case6 first hescape second tail hi lo hlo hhi hquote ih =>
      obtain ⟨⟨values, after⟩, hrun, hsame⟩ := Option.map_eq_some_iff.1 h
      cases hsame
      have hle := (ih hrun).1
      simp only [List.length_cons]
      exact ⟨by omega, fun heq => by omega⟩
  | case7 => cases h
  | case8 byte tail hquote hbackslash hliteral ih =>
      obtain ⟨⟨values, after⟩, hrun, hsame⟩ := Option.map_eq_some_iff.1 h
      cases hsame
      obtain ⟨hle, hexact⟩ := ih hrun
      simp only [List.length_cons]
      refine ⟨by omega, fun heq => ?_⟩
      obtain ⟨rfl, hall⟩ := hexact (by omega)
      refine ⟨rfl, fun b hb => ?_⟩
      rcases List.mem_cons.1 hb with rfl | hb
      · exact hliteral
      · exact hall b hb
  | case9 => cases h

theorem lexString_literal {value : Name} (h : ∀ byte ∈ value, literalByte byte = true)
    (rest : Name) : lexString (value ++ 34 :: rest) = some (value, rest) := by
  induction value with
  | nil =>
      unfold lexString
      rfl
  | cons byte value ih =>
      have hbyte := h byte List.mem_cons_self
      have hplain : byte ≠ 34 ∧ byte ≠ 92 := by
        simp only [literalByte, Bool.and_eq_true, bne_iff_ne] at hbyte
        exact ⟨hbyte.1.1.1.1, hbyte.1.1.1.2⟩
      rw [List.cons_append, lexString.eq_def]
      simp only [if_neg hplain.1, if_neg hplain.2, if_pos hbyte,
        ih fun b hb => h b (List.mem_cons_of_mem _ hb), Option.map_some]

/-! ### Tokens -/

def isBlank (byte : UInt8) : Bool := byte == 32 || byte == 9 || byte == 10 || byte == 13

/-- A byte inside an identifier. -/
def isIdent (byte : UInt8) : Bool := isWord byte || byte == 36 || byte == 46

def wordToken (word : Name) : Token :=
  if word = booleanKeyword true then .boolean true
  else if word = booleanKeyword false then .boolean false
  else .keyword word

def punctuation (byte : UInt8) : Token :=
  if byte = 40 then .lparen
  else if byte = 41 then .rparen
  else if byte = 42 then .star
  else if byte = 43 then .plus
  else if byte = 45 then .minus
  else .other [byte]

/-- One token and the text after it; no token at a blank. -/
def lexToken (byte : UInt8) (rest : Name) : Option (Option Token × Name) :=
  if isBlank byte then some (none, rest)
  else if byte = 34 then (lexString rest).map fun (value, rest) => (some (.string value), rest)
  else if byte = 45 ∧ rest.head? = some 62 then some (some (.other [45, 62]), rest.tail)
  else if isDigit byte then
    some (some (.integer (digitsValue (byte :: rest.takeWhile isDigit))), rest.dropWhile isDigit)
  else if isAlpha byte || byte == 95 then
    some (some (wordToken (byte :: rest.takeWhile isIdent)), rest.dropWhile isIdent)
  else some (some (punctuation byte), rest)

def lexTokens : Nat → Name → Option (List Token)
  | _, [] => some []
  | 0, _ :: _ => none
  | fuel + 1, byte :: rest =>
      (lexToken byte rest).bind fun (token, rest) =>
        (lexTokens fuel rest).map (token.toList ++ ·)

/-- The tokens of a text. -/
def lexAll (text : Name) : Option (List Token) := lexTokens text.length text

theorem length_dropWhile_le (p : UInt8 → Bool) (text : Name) :
    (text.dropWhile p).length ≤ text.length := List.IsSuffix.length_le (List.dropWhile_suffix p)

theorem lexToken_length {byte : UInt8} {rest after : Name} {token : Option Token}
    (h : lexToken byte rest = some (token, after)) : after.length ≤ rest.length := by
  unfold lexToken at h
  split_ifs at h
  · cases h
    exact le_refl _
  · obtain ⟨⟨value, tail⟩, hrun, hsame⟩ := Option.map_eq_some_iff.1 h
    cases hsame
    have hle := (lexString_length hrun).1
    omega
  · cases h
    simp
  · cases h
    exact length_dropWhile_le _ _
  · cases h
    exact length_dropWhile_le _ _
  · cases h
    exact le_refl _

theorem lexTokens_fuel {fuel : Nat} {text : Name} (h : text.length ≤ fuel) :
    lexTokens fuel text = lexAll text := by
  unfold lexAll
  induction fuel using Nat.strongRecOn generalizing text with
  | ind fuel ih =>
      cases text with
      | nil => cases fuel <;> rfl
      | cons byte rest =>
          obtain ⟨fuel, rfl⟩ : ∃ n, fuel = n + 1 := ⟨fuel - 1, by simp at h; omega⟩
          rw [List.length_cons, lexTokens, lexTokens]
          rw [List.length_cons] at h
          cases hrun : lexToken byte rest with
          | none => rfl
          | some result =>
              obtain ⟨token, after⟩ := result
              have hle := lexToken_length hrun
              simp only [Option.bind_some]
              rw [ih fuel (by omega) (by omega)]
              by_cases hsame : fuel = rest.length
              · rw [← hsame, ih fuel (by omega) (by omega)]
              · rw [ih rest.length (by omega) hle]

theorem lexAll_cons (byte : UInt8) (rest : Name) :
    lexAll (byte :: rest) = (lexToken byte rest).bind fun (token, rest) =>
      (lexAll rest).map (token.toList ++ ·) := by
  rw [lexAll, List.length_cons, lexTokens]
  cases hrun : lexToken byte rest with
  | none => rfl
  | some result =>
      obtain ⟨token, after⟩ := result
      simp only [Option.bind_some]
      rw [lexTokens_fuel (lexToken_length hrun)]

/-! ### The documented syntax -/

def asmLexer : AsmParser where
  lex := lexAll
  stringByte := literalByte
  booleanValue value := if value then 1 else 0
  parseOptionalAttribute _ := none

theorem lexAll_token {byte : UInt8} {rest after : Name} {token : Token}
    (h : lexToken byte rest = some (some token, after)) :
    lexAll (byte :: rest) = (lexAll after).map (token :: ·) := by
  rw [lexAll_cons, h]
  rfl

/-- A run of bytes ends where the text is delimited. -/
theorem takeWhile_delimited {p : UInt8 → Bool} (hspace : p 32 = false) (hparen : p 41 = false)
    {run text : Name} (hrun : ∀ byte ∈ run, p byte = true) (htext : Delimited text) :
    (run ++ text).takeWhile p = run ∧ (run ++ text).dropWhile p = text := by
  rw [List.takeWhile_append_of_pos hrun, List.dropWhile_append_of_pos hrun]
  cases text with
  | nil => simp
  | cons first rest =>
      have hfirst : p first = false := by
        rcases htext with rfl | rfl
        · exact hspace
        · exact hparen
      simp [hfirst]

/-- What the first byte of an identifier is not. -/
theorem lexToken_word {first : UInt8} (hfirst : isAlpha first = true ∨ first = 95) (rest : Name) :
    lexToken first rest = some (some (wordToken (first :: rest.takeWhile isIdent)),
      rest.dropWhile isIdent) := by
  have hother : isBlank first = false ∧ first ≠ 34 ∧ first ≠ 45 ∧ isDigit first = false ∧
      (isAlpha first || first == 95) = true := by
    rcases hfirst with halpha | rfl
    · have h := halpha
      simp only [isAlpha, Bool.or_eq_true, Bool.and_eq_true, decide_eq_true_eq,
        UInt8.le_iff_toNat_le] at h
      refine ⟨?_, ?_, ?_, ?_, by simp [halpha]⟩
      · simp only [isBlank, Bool.or_eq_false_iff, beq_eq_false_iff_ne]
        refine ⟨⟨⟨?_, ?_⟩, ?_⟩, ?_⟩ <;> rintro rfl <;> simp at h
      · rintro rfl
        simp at h
      · rintro rfl
        simp at h
      · simp only [isDigit, Bool.and_eq_false_iff, decide_eq_false_iff_not, UInt8.le_iff_toNat_le]
        simp at h ⊢
        omega
    · decide
  rw [lexToken, if_neg (by simp [hother.1]), if_neg hother.2.1, if_neg (fun h => hother.2.2.1 h.1),
    if_neg (by simp [hother.2.2.2.1]), if_pos hother.2.2.2.2]

theorem lexAll_word {first : UInt8} (hfirst : isAlpha first = true ∨ first = 95) {rest text : Name}
    (hrest : ∀ byte ∈ rest, isWord byte = true) (htext : Delimited text) :
    lexAll (first :: rest ++ text) = (lexAll text).map (wordToken (first :: rest) :: ·) := by
  have hident : ∀ byte ∈ rest, isIdent byte = true := fun byte hbyte => by
    simp [isIdent, hrest byte hbyte]
  obtain ⟨htake, hdrop⟩ := takeWhile_delimited (by decide) (by decide) hident htext
  have htoken := lexToken_word hfirst (rest ++ text)
  rw [htake, hdrop] at htoken
  exact lexAll_token htoken

theorem lexAll_digits (value : Nat) {text : Name} (htext : Delimited text) :
    lexAll (digits value ++ text) = (lexAll text).map (.integer value :: ·) := by
  obtain ⟨first, rest, hdigits⟩ := List.exists_cons_of_ne_nil (digits_ne_nil value)
  have hdigit : ∀ byte ∈ first :: rest, isDigit byte = true := fun byte hbyte =>
    isDigit_of_mem_digits (hdigits ▸ hbyte)
  obtain ⟨htake, hdrop⟩ := takeWhile_delimited (by decide) (by decide)
    (fun byte hbyte => hdigit byte (List.mem_cons_of_mem _ hbyte)) htext
  have hfirst := hdigit first List.mem_cons_self
  have hother : isBlank first = false ∧ first ≠ 34 ∧ first ≠ 45 := by
    simp only [isDigit, Bool.and_eq_true, decide_eq_true_eq, UInt8.le_iff_toNat_le] at hfirst
    refine ⟨?_, ?_, ?_⟩
    · simp only [isBlank, Bool.or_eq_false_iff, beq_eq_false_iff_ne]
      refine ⟨⟨⟨?_, ?_⟩, ?_⟩, ?_⟩ <;> rintro rfl <;> simp at hfirst
    · rintro rfl
      simp at hfirst
    · rintro rfl
      simp at hfirst
  have htoken : lexToken first (rest ++ text) = some (some (.integer value), text) := by
    rw [lexToken, if_neg (by simp [hother.1]), if_neg hother.2.1, if_neg (fun h => hother.2.2 h.1),
      if_pos hfirst, htake, hdrop, ← hdigits, digitsValue_digits]
  rw [hdigits, List.cons_append, lexAll_token htoken]

/-! ### Names that have to be escaped -/

theorem literalByte_of_isIdent {byte : UInt8} (h : isIdent byte = true) :
    literalByte byte = true := by
  by_contra hnot
  have hspecial : byte = 34 ∨ byte = 92 ∨ byte = 10 ∨ byte = 11 ∨ byte = 12 := by
    simp only [literalByte, Bool.and_eq_true, bne_iff_ne] at hnot
    tauto
  rcases hspecial with rfl | rfl | rfl | rfl | rfl <;> exact absurd h (by decide)

theorem wordToken_eq_keyword {text word : Name} (h : wordToken text = .keyword word) :
    word = text := by
  unfold wordToken at h
  split_ifs at h
  exact (Token.keyword.inj h).symm

theorem wordToken_ne_string {text value : Name} : wordToken text ≠ .string value := by
  unfold wordToken
  split_ifs <;> nofun

theorem punctuation_ne (byte : UInt8) (value : Name) :
    punctuation byte ≠ .string value ∧ punctuation byte ≠ .keyword value := by
  unfold punctuation
  split_ifs <;> exact ⟨nofun, nofun⟩

/-- A string token takes its quotes, its value and what its escapes add. -/
theorem lexToken_string {byte : UInt8} {rest after value : Name}
    (h : lexToken byte rest = some (some (.string value), after)) :
    value.length + 1 + after.length ≤ rest.length ∧
      (value.length + 1 + after.length = rest.length →
        byte :: rest = quoted value ++ after ∧ ∀ b ∈ value, literalByte b = true) := by
  unfold lexToken at h
  split_ifs at h with hblank hquote harrow hdigit hword
  · cases h
  · obtain ⟨⟨found, tail⟩, hrun, hsame⟩ := Option.map_eq_some_iff.1 h
    cases hsame
    obtain ⟨hle, hexact⟩ := lexString_length hrun
    refine ⟨hle, fun heq => ?_⟩
    obtain ⟨rfl, hall⟩ := hexact heq
    exact ⟨by simp [quoted, hquote], hall⟩
  · cases h
  · cases h
  · simp only [Option.some.injEq, Prod.mk.injEq] at h
    exact absurd h.1 wordToken_ne_string
  · simp only [Option.some.injEq, Prod.mk.injEq] at h
    exact absurd h.1 (punctuation_ne byte value).1

/-- A keyword has no byte that would need an escape. -/
theorem lexToken_keyword {byte : UInt8} {rest after word : Name}
    (h : lexToken byte rest = some (some (.keyword word), after)) :
    ∀ b ∈ word, literalByte b = true := by
  unfold lexToken at h
  split_ifs at h with hblank hquote harrow hdigit hword
  · cases h
  · obtain ⟨⟨found, tail⟩, hrun, hsame⟩ := Option.map_eq_some_iff.1 h
    cases hsame
  · cases h
  · cases h
  · simp only [Option.some.injEq, Prod.mk.injEq] at h
    rw [wordToken_eq_keyword h.1]
    have hfirst : isIdent byte = true := by
      rw [Bool.or_eq_true, beq_iff_eq] at hword
      simp [isIdent, isWord_of_isAlpha hword]
    intro b hb
    rcases List.mem_cons.1 hb with rfl | hb
    · exact literalByte_of_isIdent hfirst
    · exact literalByte_of_isIdent (List.mem_takeWhile_imp hb)
  · simp only [Option.some.injEq, Prod.mk.injEq] at h
    exact absurd h.1 (punctuation_ne byte word).2

/-- The strings and keywords among the tokens of a text. -/
theorem mem_lexAll {text : Name} {tokens : List Token} (h : lexAll text = some tokens) :
    (∀ value, .string value ∈ tokens → value.length + 2 ≤ text.length ∧
      (value.length + 2 = text.length → ∀ byte ∈ value, literalByte byte = true)) ∧
      ∀ word, .keyword word ∈ tokens → ∀ byte ∈ word, literalByte byte = true := by
  induction hlength : text.length using Nat.strongRecOn generalizing text tokens with
  | ind n ih =>
      subst hlength
      cases text with
      | nil =>
          cases h
          exact ⟨nofun, nofun⟩
      | cons byte rest =>
          rw [lexAll_cons] at h
          obtain ⟨⟨token, after⟩, htoken, hmap⟩ := Option.bind_eq_some_iff.1 h
          obtain ⟨later, hlater, rfl⟩ := Option.map_eq_some_iff.1 hmap
          have hle := lexToken_length htoken
          obtain ⟨hstrings, hkeywords⟩ := ih after.length (by simp; omega) hlater rfl
          rw [List.length_cons]
          constructor
          · intro value hvalue
            rcases List.mem_append.1 hvalue with hnow | hthen
            · cases token with
              | none => cases hnow
              | some token =>
                  rw [← List.mem_singleton.1 hnow] at htoken
                  obtain ⟨hfits, hexact⟩ := lexToken_string htoken
                  exact ⟨by omega, fun heq => (hexact (by omega)).2⟩
            · have hfits := (hstrings value hthen).1
              exact ⟨by omega, fun heq => by omega⟩
          · intro word hword
            rcases List.mem_append.1 hword with hnow | hthen
            · cases token with
              | none => cases hnow
              | some token =>
                  rw [← List.mem_singleton.1 hnow] at htoken
                  exact lexToken_keyword htoken
            · exact hkeywords word hthen

theorem documented_asmLexer : asmLexer.Documented where
  nil := rfl
  space text := by
    show lexAll (32 :: text) = _
    rw [lexAll_cons]
    exact Option.map_id'
  lparen text := lexAll_token (show lexToken 40 text = some (some .lparen, text) from rfl)
  rparen text := lexAll_token (show lexToken 41 text = some (some .rparen, text) from rfl)
  star text := lexAll_token (show lexToken 42 text = some (some .star, text) from rfl)
  plus text := lexAll_token (show lexToken 43 text = some (some .plus, text) from rfl)
  minus byte text hbyte := by
    refine lexAll_token ?_
    rw [lexToken, if_neg (by decide), if_neg (by decide), if_neg (by simpa using hbyte),
      if_neg (by decide), if_neg (by decide)]
    rfl
  integer value text htext := lexAll_digits value htext
  boolean value text htext := by
    cases value with
    | false =>
        exact @lexAll_word 102 (by decide) [97, 108, 115, 101] text (by decide +kernel) htext
    | true => exact @lexAll_word 116 (by decide) [114, 117, 101] text (by decide +kernel) htext
  keyword first rest text hfirst hrest hvalue htext := by
    have hword : wordToken (first :: rest) = .keyword (first :: rest) := by
      rw [wordToken, if_neg (hvalue true), if_neg (hvalue false)]
    show lexAll (first :: rest ++ text) = _
    rw [lexAll_word hfirst hrest htext, hword]
    rfl
  string name text hname := by
    show lexAll (34 :: (name ++ [34]) ++ text) = _
    rw [List.cons_append, List.append_assoc, List.singleton_append]
    refine lexAll_token ?_
    rw [lexToken, if_neg (by decide), if_pos rfl, lexString_literal hname]
    rfl
  escaped name tokens hname hlex := by
    obtain ⟨byte, hbyte, hescape⟩ := hname
    have hescape' : literalByte byte = false := hescape
    obtain ⟨hstrings, hkeywords⟩ := mem_lexAll hlex
    constructor
    · intro hmem
      have hall := (hstrings name hmem).2 (by simp [quoted])
      rw [hall byte hbyte] at hescape'
      cases hescape'
    · intro hmem
      rw [hkeywords name hmem byte hbyte] at hescape'
      cases hescape'
  attributes tokens expr rest h := by cases h

/-- `x - ("my dim" - -5) floordiv 3`. -/
def chained : SymExpr :=
  .binary .sub (.symbol (ascii "x"))
    (.binary .div (.binary .sub (.symbol (ascii "my dim")) (.constant (-5))) (.constant 3))

theorem parse_print_chained :
    parseSymExpr wrap64 asmLexer (printSymExpr chained) = some (chained, []) := by
  refine (parse_print_iff documented_asmLexer (fun name => name = ascii "x" ∨
    name = ascii "my dim")).2 ?_ chained ?_ ?_ ?_
  · rintro name (rfl | rfl)
    · exact ⟨fun _ value => by cases value <;> decide, by decide⟩
    · exact ⟨by decide, by decide +kernel⟩
  · exact ⟨trivial, ⟨⟨trivial, trivial, by decide⟩, trivial, by decide⟩, by decide⟩
  · exact ⟨trivial, ⟨trivial, (by decide : FitsI64 (-5))⟩, (by decide : FitsI64 3)⟩
  · intro name hname
    simp only [chained, symbolNames, List.append_nil, List.cons_append, List.nil_append,
      List.mem_cons, List.not_mem_nil, or_false] at hname
    exact hname

/-- A quote in a name ends the literal, and `true` reads as an integer. -/
theorem printSymExpr_unescaped :
    parseSymExpr wrap64 asmLexer (printSymExpr (.symbol (ascii "a\"b"))) = none ∧
      parseSymExpr wrap64 asmLexer (printSymExpr (.symbol (ascii "true"))) =
        some (.constant 1, []) := by
  decide

end SymReloc.Syntax
