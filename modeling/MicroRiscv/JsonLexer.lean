import Mathlib.Data.Nat.Basic
import MicroRiscv.Json

/-!
# The tokens of a JSON text

The lexer behind `nlohmann::json::parse`, on a text of characters: the branches for bytes that are
no UTF-8 are left out. A scan function is `none` where the source returns `parse_error`; it
returns the token and the input that is left. `strtod` is the conversion of the C library, `none`
when the number is too large for a `double`.

The lexer does not depend on the parser, so `tokens` is the list of all tokens up to the first
`parse_error` or `end_of_input`.

Results:
1. `scan_length`: a token that is not the end takes at least one character.
2. `tokens_step`: the tokens of a text one after the other.
3. `tokens_nul`: what comes behind a NUL does not count.
-/

namespace MicroRiscv

namespace JsonText

variable {F : Type}

/-- `token_type`, with the values that the lexer keeps for the last token. -/
inductive Token (F : Type)
  | literalTrue
  | literalFalse
  | literalNull
  | valueString (s : String)
  | valueUnsigned (n : BitVec 64)
  | valueInteger (n : BitVec 64)
  | valueFloat (x : Option F)
  | beginArray
  | beginObject
  | endArray
  | endObject
  | nameSeparator
  | valueSeparator
  | parseError
  | endOfInput

/-! ## Strings -/

def hexDigit (c : Char) : Option Nat :=
  if '0' ≤ c ∧ c ≤ '9' then some (c.toNat - 0x30)
  else if 'A' ≤ c ∧ c ≤ 'F' then some (c.toNat - 0x37)
  else if 'a' ≤ c ∧ c ≤ 'f' then some (c.toNat - 0x57)
  else none

/-- The loop of `get_codepoint`. -/
def addDigits (codepoint : Nat) : (factors : List Nat) → List Char → Option (Nat × List Char)
  | [], input => some (codepoint, input)
  | _ :: _, [] => none
  | factor :: factors, c :: input =>
    match hexDigit c with
    | some d => addDigits (codepoint + d <<< factor) factors input
    | none => none

def getCodepoint (input : List Char) : Option (Nat × List Char) := addDigits 0 [12, 8, 4, 0] input

/-- The escapes of one character. -/
def shortEscape (c : Char) : Option Char :=
  match c with
  | '\"' => some '\"'
  | '\\' => some '\\'
  | '/' => some '/'
  | 'b' => some (Char.ofNat 0x08)
  | 'f' => some (Char.ofNat 0x0C)
  | 'n' => some '\n'
  | 'r' => some '\r'
  | 't' => some '\t'
  | _ => none

/-- A character above U+FFFF is escaped as two surrogates. -/
def scanSurrogate (codepoint1 : Nat) : List Char → Option (Char × List Char)
  | c1 :: c2 :: input =>
    if c1 = '\\' ∧ c2 = 'u' then do
      let (codepoint2, input) ← getCodepoint input
      if 0xDC00 ≤ codepoint2 ∧ codepoint2 ≤ 0xDFFF then
        return (Char.ofNat (codepoint1 * 0x400 + codepoint2 - 0x35FDC00), input)
      else none
    else none
  | _ => none

/-- An escape, behind its backslash. -/
def scanEscape : List Char → Option (Char × List Char)
  | [] => none
  | c :: input =>
    if c = 'u' then do
      let (codepoint1, input) ← getCodepoint input
      if 0xD800 ≤ codepoint1 ∧ codepoint1 ≤ 0xDBFF then scanSurrogate codepoint1 input
      else if 0xDC00 ≤ codepoint1 ∧ codepoint1 ≤ 0xDFFF then none
      else return (Char.ofNat codepoint1, input)
    else (shortEscape c).map (·, input)

theorem addDigits_length {factors : List Nat} {codepoint n : Nat} {input rest : List Char}
    (h : addDigits codepoint factors input = some (n, rest)) :
    rest.length + factors.length = input.length := by
  induction factors generalizing codepoint input with
  | nil =>
    cases h
    rfl
  | cons factor factors ih =>
    cases input with
    | nil => cases h
    | cons c input =>
      unfold addDigits at h
      split at h
      · exact congrArg (· + 1) (ih h)
      · cases h

theorem getCodepoint_length {input rest : List Char} {n : Nat}
    (h : getCodepoint input = some (n, rest)) : rest.length < input.length := by
  rw [← addDigits_length h]
  exact Nat.lt_add_of_pos_right (Nat.succ_pos 3)

theorem scanSurrogate_length {input rest : List Char} {n : Nat} {c : Char}
    (h : scanSurrogate n input = some (c, rest)) : rest.length < input.length := by
  unfold scanSurrogate at h
  split at h
  · split at h
    · obtain ⟨⟨m, rest'⟩, hcode, h⟩ := Option.bind_eq_some_iff.mp h
      have hlt := getCodepoint_length hcode
      dsimp only at h
      split at h
      · obtain ⟨-, rfl⟩ := Prod.mk.inj (Option.some.inj h)
        exact Nat.lt_trans hlt (Nat.lt_add_of_pos_right Nat.two_pos)
      · cases h
    · cases h
  · cases h

theorem scanEscape_length {input rest : List Char} {c : Char}
    (h : scanEscape input = some (c, rest)) : rest.length < input.length := by
  unfold scanEscape at h
  split at h
  · cases h
  · split at h
    · obtain ⟨⟨n, rest'⟩, hcode, h⟩ := Option.bind_eq_some_iff.mp h
      have hlt := getCodepoint_length hcode
      dsimp only at h
      rw [List.length_cons]
      split at h
      · exact Nat.lt_succ_of_lt (Nat.lt_trans (scanSurrogate_length h) hlt)
      · split at h
        · cases h
        · cases h
          exact Nat.lt_succ_of_lt hlt
    · obtain ⟨_, -, h⟩ := Option.map_eq_some_iff.mp h
      cases h
      exact Nat.lt_succ_self _

/-- `scan_string`, behind the opening quote; `buffer` is `token_buffer`. -/
def scanString (buffer : List Char) : List Char → Option (List Char × List Char)
  | [] => none
  | c :: input =>
    if c = '\"' then some (buffer, input)
    else if c = '\\' then
      match h : scanEscape input with
      | none => none
      | some (e, rest) =>
        have := scanEscape_length h
        scanString (buffer ++ [e]) rest
    else if c.toNat < 0x20 then none
    else scanString (buffer ++ [c]) input
termination_by input => input.length
decreasing_by
  · exact Nat.lt_succ_of_lt this
  · exact Nat.lt_succ_self _

/-! ## Numbers -/

/-- The labels of `scan_number` behind which a character is read. -/
inductive NumberState
  | minus
  | zero
  | any1
  | decimal1
  | decimal2
  | exponent
  | sign
  | any2
deriving DecidableEq

inductive NumberStep
  | goto (s : NumberState)
  | done
  | error
deriving DecidableEq

inductive NumberType
  | unsigned
  | integer
  | float
deriving DecidableEq

/-- The `default` of a `switch`, which the end of the input takes too. -/
def NumberState.default : NumberState → NumberStep
  | .minus | .decimal1 | .exponent | .sign => .error
  | .zero | .any1 | .decimal2 | .any2 => .done

def NumberState.next (s : NumberState) (c : Char) : NumberStep :=
  if c.isDigit then
    match s with
    | .minus => .goto (if c = '0' then .zero else .any1)
    | .zero => .done
    | .any1 => .goto .any1
    | .decimal1 | .decimal2 => .goto .decimal2
    | .exponent | .sign | .any2 => .goto .any2
  else if c = '.' then
    match s with
    | .zero | .any1 => .goto .decimal1
    | s => s.default
  else if c = 'e' ∨ c = 'E' then
    match s with
    | .zero | .any1 | .decimal2 => .goto .exponent
    | s => s.default
  else if c = '+' ∨ c = '-' then
    match s with
    | .exponent => .goto .sign
    | s => s.default
  else s.default

/-- The assignments to `number_type` behind the labels. -/
def NumberState.numberType (s : NumberState) (ty : NumberType) : NumberType :=
  match s with
  | .minus => .integer
  | .decimal1 | .exponent => .float
  | _ => ty

def scanNumberFrom (s : NumberState) (ty : NumberType) (buffer : List Char) :
    List Char → Option (NumberType × List Char × List Char)
  | [] =>
    match s.default with
    | .done => some (ty, buffer, [])
    | _ => none
  | c :: input =>
    match s.next c with
    | .goto s' => scanNumberFrom s' (s'.numberType ty) (buffer ++ [c]) input
    | .done => some (ty, buffer, c :: input)
    | .error => none

/-- An integer that does not fit falls back to a floating-point number. -/
def convertNumber (strtod : List Char → Option F) (ty : NumberType) (buffer : List Char) :
    Token F :=
  match ty with
  | .unsigned =>
    let x := Nat.ofDigitChars 10 buffer 0
    if x < 2 ^ 64 then .valueUnsigned (BitVec.ofNat 64 x) else .valueFloat (strtod buffer)
  | .integer =>
    let x := Nat.ofDigitChars 10 buffer.tail 0
    if x ≤ 2 ^ 63 then .valueInteger (BitVec.ofInt 64 (-x)) else .valueFloat (strtod buffer)
  | .float => .valueFloat (strtod buffer)

/-- `scan_number`, which has found the character `c`. -/
def scanNumber (strtod : List Char → Option F) (c : Char) (input : List Char) :
    Option (Token F × List Char) := do
  let s : NumberState := if c = '-' then .minus else if c = '0' then .zero else .any1
  let (ty, buffer, rest) ← scanNumberFrom s (s.numberType .unsigned) [c] input
  return (convertNumber strtod ty buffer, rest)

theorem scanNumberFrom_length {s : NumberState} {ty ty' : NumberType}
    {buffer buffer' input rest : List Char}
    (h : scanNumberFrom s ty buffer input = some (ty', buffer', rest)) :
    rest.length ≤ input.length := by
  induction input generalizing s ty buffer with
  | nil =>
    unfold scanNumberFrom at h
    split at h
    · cases h
      exact le_rfl
    · cases h
  | cons c input ih =>
    unfold scanNumberFrom at h
    split at h
    · exact Nat.le_succ_of_le (ih h)
    · cases h
      exact le_rfl
    · cases h

/-! ## Tokens -/

/-- `scan_literal`, behind the first character. -/
def scanLiteral : (literal : List Char) → List Char → Option (List Char)
  | [], input => some input
  | _ :: _, [] => none
  | l :: literal, c :: input => if c = l then scanLiteral literal input else none

def isSpace (c : Char) : Bool := c = ' ' ∨ c = '\t' ∨ c = '\n' ∨ c = '\r'

def skipWhitespace (input : List Char) : List Char := input.dropWhile isSpace

/-- The token that starts with the character `c`. A NUL ends the input. -/
def scanFrom (strtod : List Char → Option F) (c : Char) (input : List Char) :
    Option (Token F × List Char) :=
  match c with
  | '[' => some (.beginArray, input)
  | ']' => some (.endArray, input)
  | '{' => some (.beginObject, input)
  | '}' => some (.endObject, input)
  | ':' => some (.nameSeparator, input)
  | ',' => some (.valueSeparator, input)
  | 't' => (scanLiteral ['r', 'u', 'e'] input).map (.literalTrue, ·)
  | 'f' => (scanLiteral ['a', 'l', 's', 'e'] input).map (.literalFalse, ·)
  | 'n' => (scanLiteral ['u', 'l', 'l'] input).map (.literalNull, ·)
  | '\"' => (scanString [] input).map fun (s, rest) => (.valueString (String.ofList s), rest)
  | '\x00' => some (.endOfInput, input)
  | c => if c = '-' ∨ c.isDigit then scanNumber strtod c input else none

def scan (strtod : List Char → Option F) (input : List Char) : Option (Token F × List Char) :=
  match skipWhitespace input with
  | [] => some (.endOfInput, [])
  | c :: input => scanFrom strtod c input

/-! ## All tokens -/

variable {strtod : List Char → Option F} {input rest : List Char} {t : Token F}

theorem scanLiteral_length {literal : List Char} (h : scanLiteral literal input = some rest) :
    rest.length ≤ input.length := by
  induction literal generalizing input with
  | nil =>
    cases h
    exact le_rfl
  | cons l literal ih =>
    cases input with
    | nil => cases h
    | cons c input =>
      unfold scanLiteral at h
      split at h
      · exact Nat.le_succ_of_le (ih h)
      · cases h

theorem scanString_length {buffer s : List Char} (h : scanString buffer input = some (s, rest)) :
    rest.length < input.length := by
  fun_induction scanString buffer input with
  | case1 buffer => cases h
  | case2 buffer input =>
    cases h
    exact Nat.lt_succ_self _
  | case3 buffer input hescape _ => cases h
  | case4 buffer input e rest' hescape hlt _ ih => exact Nat.lt_succ_of_lt (Nat.lt_trans (ih h) hlt)
  | case5 buffer c input _ _ hcontrol => cases h
  | case6 buffer c input _ _ _ ih => exact Nat.lt_succ_of_lt (ih h)

theorem scanNumber_length {c : Char} (h : scanNumber strtod c input = some (t, rest)) :
    rest.length ≤ input.length := by
  obtain ⟨⟨ty, buffer, rest'⟩, hnumber, h⟩ := Option.bind_eq_some_iff.mp h
  obtain ⟨-, rfl⟩ := Prod.mk.inj (Option.some.inj h)
  exact scanNumberFrom_length hnumber

theorem scanFrom_length {c : Char} (h : scanFrom strtod c input = some (t, rest)) :
    rest.length ≤ input.length := by
  have hliteral : ∀ (literal : List Char) (u : Token F),
      (scanLiteral literal input).map (u, ·) = some (t, rest) → rest.length ≤ input.length := by
    intro literal u h
    obtain ⟨rest', hrest, h⟩ := Option.map_eq_some_iff.mp h
    cases h
    exact scanLiteral_length hrest
  unfold scanFrom at h
  split at h
  case h_7 => exact hliteral _ _ h
  case h_8 => exact hliteral _ _ h
  case h_9 => exact hliteral _ _ h
  case h_10 =>
    obtain ⟨⟨s, rest'⟩, hstring, h⟩ := Option.map_eq_some_iff.mp h
    cases h
    exact (scanString_length hstring).le
  case h_12 =>
    split at h
    · exact scanNumber_length h
    · cases h
  all_goals
    cases h
    exact le_rfl

def Token.isEnd : Token F → Bool
  | .endOfInput => true
  | _ => false

theorem scan_length (h : scan strtod input = some (t, rest)) (ht : t.isEnd = false) :
    rest.length < input.length := by
  unfold scan at h
  split at h
  · cases h
    cases ht
  · next c input' hskip =>
    have hle : (c :: input').length ≤ input.length := by
      rw [← hskip]
      exact (List.dropWhile_suffix _).length_le
    exact Nat.lt_of_le_of_lt (scanFrom_length h) hle

/-- The tokens that the parser can get. -/
def tokens (strtod : List Char → Option F) (input : List Char) : List (Token F) :=
  match h : scan strtod input with
  | none => [.parseError]
  | some (t, rest) =>
    match ht : t.isEnd with
    | true => [t]
    | false =>
      have := scan_length h ht
      t :: tokens strtod rest
termination_by input.length

theorem tokens_step (h : scan strtod input = some (t, rest)) (ht : t.isEnd = false) :
    tokens strtod input = t :: tokens strtod rest := by
  rw [tokens]
  split
  · next hnone => cases h.symm.trans hnone
  · next t' rest' hsome =>
    cases h.symm.trans hsome
    split
    · next hend => cases ht.symm.trans hend
    · rfl

theorem tokens_end (h : scan strtod input = some (t, rest)) (ht : t.isEnd = true) :
    tokens strtod input = [t] := by
  rw [tokens]
  split
  · next hnone => cases h.symm.trans hnone
  · next t' rest' hsome =>
    cases h.symm.trans hsome
    split
    · rfl
    · next hnot => cases ht.symm.trans hnot

theorem tokens_error (h : scan strtod input = none) : tokens strtod input = [.parseError] := by
  rw [tokens]
  split
  · rfl
  · next hsome => cases h.symm.trans hsome

/-- `skip_bom`. U+F000 to U+FFFF are the characters whose first byte is that of the mark. -/
def skipBOM : List Char → Option (List Char)
  | [] => some []
  | c :: input =>
    if c.toNat = 0xFEFF then some input
    else if 0xF000 ≤ c.toNat ∧ c.toNat ≤ 0xFFFF then none
    else some (c :: input)

/-! ## A NUL -/

section Nul

variable {strtod : List Char → Option F} {c : Char} {input rest tail : List Char} {t : Token F}

def nul : Char := '\x00'

/-- The result of a scan function with more input behind it. -/
def behind {α : Type} (tail : List Char) : Option (α × List Char) → Option (α × List Char) :=
  Option.map fun (a, rest) => (a, rest ++ tail)

theorem scanLiteral_nul (literal : List Char) (hliteral : nul ∉ literal) :
    scanLiteral literal (input ++ nul :: tail) =
      (scanLiteral literal input).map (· ++ nul :: tail) := by
  induction literal generalizing input with
  | nil => rfl
  | cons l literal ih =>
    cases input with
    | nil =>
      have hl : nul ≠ l := fun h => hliteral (h ▸ List.mem_cons_self)
      show (if nul = l then _ else none) = none
      rw [if_neg hl]
    | cons c input =>
      show (if c = l then scanLiteral literal (input ++ nul :: tail) else none) =
        (if c = l then scanLiteral literal input else none).map _
      split
      · exact ih fun h => hliteral (List.mem_cons_of_mem _ h)
      · rfl

theorem addDigits_nul (factors : List Nat) (codepoint : Nat) :
    addDigits codepoint factors (input ++ nul :: tail) =
      behind (nul :: tail) (addDigits codepoint factors input) := by
  induction factors generalizing codepoint input with
  | nil => rfl
  | cons factor factors ih =>
    cases input with
    | nil => rfl
    | cons c input =>
      rw [List.cons_append]
      unfold addDigits
      cases hexDigit c with
      | some d => exact ih _
      | none => rfl

theorem scanSurrogate_nul (codepoint : Nat) :
    scanSurrogate codepoint (input ++ nul :: tail) =
      behind (nul :: tail) (scanSurrogate codepoint input) := by
  match input with
  | [] => cases tail <;> rfl
  | [c] =>
    show (if c = '\\' ∧ nul = 'u' then _ else none) = none
    rw [if_neg fun h => absurd h.2 (by decide)]
  | c1 :: c2 :: input =>
    rw [List.cons_append, List.cons_append]
    unfold scanSurrogate
    dsimp only
    split
    · rw [getCodepoint, addDigits_nul, ← getCodepoint]
      cases getCodepoint input with
      | none => rfl
      | some r =>
        show (if 0xDC00 ≤ r.1 ∧ r.1 ≤ 0xDFFF then _ else none) =
          behind _ (if 0xDC00 ≤ r.1 ∧ r.1 ≤ 0xDFFF then _ else none)
        split <;> rfl
    · rfl

theorem scanEscape_nul :
    scanEscape (input ++ nul :: tail) = behind (nul :: tail) (scanEscape input) := by
  cases input with
  | nil => rfl
  | cons c input =>
    rw [List.cons_append]
    unfold scanEscape
    dsimp only
    split
    · rw [getCodepoint, addDigits_nul, ← getCodepoint]
      cases getCodepoint input with
      | none => rfl
      | some r =>
        obtain ⟨n, rest⟩ := r
        show (if 0xD800 ≤ n ∧ n ≤ 0xDBFF then scanSurrogate n (rest ++ nul :: tail)
            else if 0xDC00 ≤ n ∧ n ≤ 0xDFFF then none
            else some (Char.ofNat n, rest ++ nul :: tail)) =
          behind _ (if 0xD800 ≤ n ∧ n ≤ 0xDBFF then scanSurrogate n rest
            else if 0xDC00 ≤ n ∧ n ≤ 0xDFFF then none else some (Char.ofNat n, rest))
        split
        · exact scanSurrogate_nul n
        · split <;> rfl
    · cases shortEscape c <;> rfl

theorem scanString_nul (buffer : List Char) :
    scanString buffer (input ++ nul :: tail) = behind (nul :: tail) (scanString buffer input) := by
  fun_induction scanString buffer input with
  | case1 buffer =>
    rw [List.nil_append, scanString, if_neg (by decide), if_neg (by decide), if_pos (by decide)]
    rfl
  | case2 buffer input =>
    rw [List.cons_append, scanString, if_pos rfl]
    rfl
  | case3 buffer input hescape _ =>
    rw [List.cons_append, scanString, if_neg (by decide), if_pos rfl]
    have hnone : scanEscape (input ++ nul :: tail) = behind (nul :: tail) (scanEscape input) :=
      scanEscape_nul
    rw [hescape] at hnone
    split
    · rfl
    · next hsome => cases hnone.symm.trans hsome
  | case4 buffer input e rest hescape hlt _ ih =>
    rw [List.cons_append, scanString, if_neg (by decide), if_pos rfl]
    have hsome : scanEscape (input ++ nul :: tail) = behind (nul :: tail) (scanEscape input) :=
      scanEscape_nul
    rw [hescape] at hsome
    split
    · next hnone => cases hsome.symm.trans hnone
    · next hsome' =>
      cases hsome.symm.trans hsome'
      exact ih
  | case5 buffer c input hquote hbackslash hcontrol =>
    rw [List.cons_append, scanString, if_neg hquote, if_neg hbackslash, if_pos hcontrol]
    rfl
  | case6 buffer c input hquote hbackslash hcontrol ih =>
    rw [List.cons_append, scanString, if_neg hquote, if_neg hbackslash, if_neg hcontrol]
    exact ih

theorem scanNumberFrom_nul (s : NumberState) (ty : NumberType) (buffer : List Char) :
    scanNumberFrom s ty buffer (input ++ nul :: tail) =
      (scanNumberFrom s ty buffer input).map
        fun (ty, buffer, rest) => (ty, buffer, rest ++ nul :: tail) := by
  -- a NUL is none of the characters that a state asks for
  have hnul : ∀ s : NumberState, s.next nul = s.default := by
    intro s
    cases s <;> rfl
  induction input generalizing s ty buffer with
  | nil =>
    rw [List.nil_append]
    unfold scanNumberFrom
    rw [hnul]
    cases s <;> rfl
  | cons c input ih =>
    rw [List.cons_append]
    unfold scanNumberFrom
    cases s.next c with
    | goto s' => exact ih _ _ _
    | done => rfl
    | error => rfl

theorem scanFrom_nul : scanFrom strtod c (input ++ nul :: tail) =
    behind (nul :: tail) (scanFrom strtod c input) := by
  have hliteral : ∀ (literal : List Char) (u : Token F), nul ∉ literal →
      (scanLiteral literal (input ++ nul :: tail)).map (u, ·) =
        behind (nul :: tail) ((scanLiteral literal input).map (u, ·)) := by
    intro literal u h
    rw [scanLiteral_nul literal h]
    cases scanLiteral literal input <;> rfl
  unfold scanFrom
  split
  case h_7 => exact hliteral _ _ (by decide)
  case h_8 => exact hliteral _ _ (by decide)
  case h_9 => exact hliteral _ _ (by decide)
  case h_10 =>
    rw [scanString_nul]
    cases scanString [] input <;> rfl
  case h_12 =>
    split
    · unfold scanNumber
      dsimp only
      rw [scanNumberFrom_nul]
      cases scanNumberFrom _ _ _ input <;> rfl
    · rfl
  all_goals rfl

theorem skipWhitespace_nul (input tail : List Char) :
    skipWhitespace (input ++ nul :: tail) = skipWhitespace input ++ nul :: tail := by
  unfold skipWhitespace
  rw [List.dropWhile_append]
  split
  · next hempty =>
    rw [List.isEmpty_iff.mp hempty]
    rfl
  · rfl

/-- The tokens do not go on behind a NUL: in front of a token it ends the text, and elsewhere it
is no better than the end of the text. -/
theorem tokens_nul (input tail : List Char) :
    tokens strtod (input ++ nul :: tail) = tokens strtod input := by
  induction hlen : input.length using Nat.strong_induction_on generalizing input with
  | _ n ih =>
    have hskip := skipWhitespace_nul input tail
    cases hinput : skipWhitespace input with
    | nil =>
      rw [hinput] at hskip
      have hend : scan strtod (input ++ nul :: tail) = some (.endOfInput, tail) := by
        unfold scan
        rw [hskip]
        rfl
      have hend' : scan strtod input = some (.endOfInput, []) := by
        unfold scan
        rw [hinput]
      rw [tokens_end hend rfl, tokens_end hend' rfl]
    | cons c rest =>
      rw [hinput] at hskip
      have hscan : scan strtod (input ++ nul :: tail) =
          behind (nul :: tail) (scan strtod input) := by
        unfold scan
        rw [hskip, hinput]
        exact scanFrom_nul
      cases hfirst : scan strtod input with
      | none =>
        rw [hfirst] at hscan
        rw [tokens_error hscan, tokens_error hfirst]
      | some r =>
        obtain ⟨t, rest⟩ := r
        rw [hfirst] at hscan
        cases hend : t.isEnd with
        | true => rw [tokens_end hscan hend, tokens_end hfirst hend]
        | false =>
          have hlt : rest.length < n := hlen ▸ scan_length hfirst hend
          rw [tokens_step hscan hend, tokens_step hfirst hend, ih _ hlt rest rfl]

end Nul
end JsonText

end MicroRiscv
