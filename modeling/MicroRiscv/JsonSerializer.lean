import MicroRiscv.JsonParser

/-!
# The JSON serializer

`dump` of `nlohmann::json` without indentation. `dumpFloat` writes a floating-point number and is
a parameter. An integer is written from its end into a buffer of `n_chars` characters, two digits
at a time.

Results:
1. `dumpInteger_spec`: the digits fill the characters that were counted for them.
2. `tokens_dump`: the tokens of the text of a value.
3. `dump_roundTrip`: a value comes back from its text, and what was accepted once comes back as
   it is, unless it has a floating-point number or an integer that is not negative.
-/

namespace MicroRiscv

namespace JsonText

variable {F : Type}

/-! ## Integers -/

/-- `count_digits`, with the digits counted so far. -/
def countDigits (nDigits x : Nat) : Nat :=
  if x < 10 then nDigits
  else if x < 100 then nDigits + 1
  else if x < 1000 then nDigits + 2
  else if x < 10000 then nDigits + 3
  else countDigits (nDigits + 4) (x / 10000)
termination_by x
decreasing_by omega

/-- An entry of `digits_to_99`. -/
def digitsTo99 (n : Nat) : List Char := [Nat.digitChar (n / 10), Nat.digitChar (n % 10)]

/-- The digits in front of those that are in the buffer. -/
def dumpDigits (x : Nat) (buffer : List Char) : List Char :=
  if 100 ≤ x then dumpDigits (x / 100) (digitsTo99 (x % 100) ++ buffer)
  else if 10 ≤ x then digitsTo99 x ++ buffer
  else Nat.digitChar x :: buffer
termination_by x
decreasing_by omega

def removeSign (x : BitVec 64) : BitVec 64 := -(x + 1#64) + 1#64

/-- `dump_integer`: the size of the text, and the text. -/
def dumpInteger (signed : Bool) (x : BitVec 64) : Nat × List Char :=
  if x = 0#64 then (1, ['0'])
  else if signed ∧ x.toInt < 0 then
    (1 + countDigits 1 (removeSign x).toNat, '-' :: dumpDigits (removeSign x).toNat [])
  else (countDigits 1 x.toNat, dumpDigits x.toNat [])

/-! ## Strings -/

/-- `%04x`. -/
def hex4 (n : Nat) : List Char :=
  [Nat.digitChar (n / 0x1000), Nat.digitChar (n / 0x100 % 16), Nat.digitChar (n / 0x10 % 16),
    Nat.digitChar (n % 16)]

def unicodeEscape (n : Nat) : List Char := '\\' :: 'u' :: hex4 n

/-- A code point in `dump_escaped`. -/
def escapeChar (ensureAscii : Bool) (c : Char) : List Char :=
  match c.toNat with
  | 0x08 => ['\\', 'b']
  | 0x09 => ['\\', 't']
  | 0x0A => ['\\', 'n']
  | 0x0C => ['\\', 'f']
  | 0x0D => ['\\', 'r']
  | 0x22 => ['\\', '\"']
  | 0x5C => ['\\', '\\']
  | codepoint =>
    if codepoint ≤ 0x1F ∨ ensureAscii ∧ 0x7F ≤ codepoint then
      if codepoint ≤ 0xFFFF then unicodeEscape codepoint
      else unicodeEscape (0xD7C0 + codepoint / 0x400) ++ unicodeEscape (0xDC00 + codepoint % 0x400)
    else [c]

def dumpEscaped (ensureAscii : Bool) (s : String) : List Char :=
  s.toList.flatMap (escapeChar ensureAscii)

/-- A string with its quotes, and what comes behind it. -/
def quoted (ensureAscii : Bool) (s : String) (rest : List Char) : List Char :=
  '\"' :: (dumpEscaped ensureAscii s ++ '\"' :: rest)

/-! ## Values -/

section Dump

variable (dumpFloat : F → List Char) (ensureAscii : Bool)

mutual

def dump : Json F → List Char
  | .object [] => ['{', '}']
  | .object ((k, e) :: ms) => '{' :: quoted ensureAscii k (':' :: (dump e ++ dumpMembers ms))
  | .array [] => ['[', ']']
  | .array (e :: es) => '[' :: (dump e ++ dumpElements es)
  | .string s => quoted ensureAscii s []
  | .boolean true => ['t', 'r', 'u', 'e']
  | .boolean false => ['f', 'a', 'l', 's', 'e']
  | .numberInteger n => (dumpInteger true n).2
  | .numberUnsigned n => (dumpInteger false n).2
  | .numberFloat x => dumpFloat x
  | .null => ['n', 'u', 'l', 'l']

/-- The elements behind the first one. -/
def dumpElements : List (Json F) → List Char
  | [] => [']']
  | e :: es => ',' :: (dump e ++ dumpElements es)

def dumpMembers : List (String × Json F) → List Char
  | [] => ['}']
  | (k, e) :: ms => ',' :: quoted ensureAscii k (':' :: (dump e ++ dumpMembers ms))

end

end Dump

/-! ## 1. Integers -/

theorem length_countDigits (nDigits x : Nat) :
    countDigits nDigits x + 1 = nDigits + (Nat.toDigits 10 x).length := by
  have hsplit : ∀ y, 10 ≤ y →
      (Nat.toDigits 10 y).length = (Nat.toDigits 10 (y / 10)).length + 1 := fun y hy => by
    rw [Nat.toDigits_of_base_le (by decide) hy, List.length_append, List.length_singleton]
  have hlast : ∀ y, y < 10 → (Nat.toDigits 10 y).length = 1 := fun y hy => by
    rw [Nat.toDigits_of_lt_base hy, List.length_singleton]
  -- a round of the loop looks at four digits and divides by 10000
  fun_induction countDigits nDigits x with
  | case1 n x h1 => rw [hlast x h1]
  | case2 n x h1 h2 => rw [hsplit x (by omega), hlast (x / 10) (by omega)]
  | case3 n x h1 h2 h3 =>
    rw [hsplit x (by omega), hsplit (x / 10) (by omega), hlast (x / 10 / 10) (by omega)]
  | case4 n x h1 h2 h3 h4 =>
    rw [hsplit x (by omega), hsplit (x / 10) (by omega), hsplit (x / 10 / 10) (by omega),
      hlast (x / 10 / 10 / 10) (by omega)]
  | case5 n x h1 h2 h3 h4 ih =>
    have hdiv : x / 10 / 10 / 10 / 10 = x / 10000 := by
      simp only [Nat.div_div_eq_div_mul]
    rw [ih, hsplit x (by omega), hsplit (x / 10) (by omega), hsplit (x / 10 / 10) (by omega),
      hsplit (x / 10 / 10 / 10) (by omega), hdiv]
    omega

theorem dumpDigits_eq (x : Nat) (buffer : List Char) :
    dumpDigits x buffer = Nat.toDigits 10 x ++ buffer := by
  fun_induction dumpDigits x buffer with
  | case1 x buffer h ih =>
    -- a pair of the table `digits_to_99` is two digits
    have hlow : x % 100 / 10 = x / 10 % 10 := by omega
    have hunit : x % 100 % 10 = x % 10 := by omega
    rw [ih, Nat.toDigits_of_base_le (by decide) (by omega : 10 ≤ x),
      Nat.toDigits_of_base_le (by decide) (by omega : 10 ≤ x / 10), Nat.div_div_eq_div_mul,
      digitsTo99, hlow, hunit, List.append_assoc, List.append_assoc]
    rfl
  | case2 x buffer h h10 =>
    rw [Nat.toDigits_of_base_le (by decide) h10, Nat.toDigits_of_lt_base (by omega : x / 10 < 10)]
    rfl
  | case3 x buffer h h10 =>
    rw [Nat.toDigits_of_lt_base (Nat.not_le.mp h10)]
    rfl

/-- The digits of an integer, behind a minus if it is negative. -/
def integerText (signed : Bool) (x : BitVec 64) : List Char :=
  if signed ∧ x.toInt < 0 then '-' :: Nat.toDigits 10 x.toInt.natAbs
  else Nat.toDigits 10 x.toNat

theorem removeSign_toNat {x : BitVec 64} (h : x.toInt < 0) :
    (removeSign x).toNat = x.toInt.natAbs := by
  have hneg : removeSign x = -x := by
    unfold removeSign
    rw [BitVec.neg_add, BitVec.sub_add_cancel]
  have hvalue := BitVec.toInt_eq_toNat_cond x
  have hlt := x.isLt
  rw [hneg, BitVec.toNat_neg]
  split at hvalue <;> omega

theorem countDigits_eq (y : Nat) : countDigits 1 y = (Nat.toDigits 10 y).length := by
  have h := length_countDigits 1 y
  rwa [Nat.add_comm, Nat.add_right_inj] at h

theorem dumpInteger_text (signed : Bool) (x : BitVec 64) :
    (dumpInteger signed x).2 = integerText signed x := by
  unfold dumpInteger integerText
  by_cases hzero : x = 0#64
  · subst hzero
    simp
  · rw [if_neg hzero]
    split
    · next hneg => rw [dumpDigits_eq, List.append_nil, removeSign_toNat hneg.2]
    · rw [dumpDigits_eq, List.append_nil]

/-- The text of an integer, and that it fills the characters that were counted for it. They fit
into `number_buffer`, which has 64. -/
theorem dumpInteger_spec (signed : Bool) (x : BitVec 64) :
    (dumpInteger signed x).2 = integerText signed x ∧
    (dumpInteger signed x).2.length = (dumpInteger signed x).1 ∧
    (dumpInteger signed x).1 < 63 := by
  refine ⟨dumpInteger_text signed x, ?_⟩
  have hsize : ∀ y : Nat, y < 2 ^ 64 → (Nat.toDigits 10 y).length ≤ 20 := fun y hy =>
    (Nat.length_toDigits_le_iff (by decide) (by decide)).mpr (Nat.lt_trans hy (by decide))
  unfold dumpInteger
  by_cases hzero : x = 0#64
  · rw [if_pos hzero]
    exact ⟨rfl, by decide⟩
  · rw [if_neg hzero]
    split
    · have hlen := hsize _ (removeSign x).isLt
      rw [dumpDigits_eq, List.append_nil, countDigits_eq]
      exact ⟨Nat.add_comm _ _, by omega⟩
    · have hlen := hsize _ x.isLt
      rw [dumpDigits_eq, List.append_nil, countDigits_eq]
      exact ⟨rfl, by omega⟩

/-! ## 2. Tokens -/

section Lexing

variable {strtod : List Char → Option F} {c : Char} {input rest : List Char}

theorem scan_cons (h : isSpace c = false) : scan strtod (c :: input) = scanFrom strtod c input := by
  unfold scan skipWhitespace
  rw [List.dropWhile_cons_of_neg (by rw [h]; exact Bool.false_ne_true)]

/-- No number goes on behind it. -/
def EndsNumber (rest : List Char) : Prop :=
  ∀ c input, rest = c :: input → NumberState.zero.next c = .done ∧ NumberState.any1.next c = .done

theorem scanNumberFrom_digits {ty : NumberType} {ds : List Char} (hds : ∀ d, d ∈ ds → d.isDigit)
    (hrest : EndsNumber rest) (buffer : List Char) :
    scanNumberFrom .any1 ty buffer (ds ++ rest) = some (ty, buffer ++ ds, rest) := by
  induction ds generalizing buffer with
  | nil =>
    rw [List.nil_append, List.append_nil]
    cases rest with
    | nil => rfl
    | cons c input =>
      unfold scanNumberFrom
      rw [(hrest c input rfl).2]
  | cons d ds ih =>
    have hd : NumberState.any1.next d = .goto .any1 := by
      unfold NumberState.next
      rw [if_pos (hds d List.mem_cons_self)]
    rw [List.cons_append]
    unfold scanNumberFrom
    rw [hd]
    show scanNumberFrom .any1 ty (buffer ++ [d]) (ds ++ rest) = _
    rw [ih (fun d hd => hds d (List.mem_cons_of_mem _ hd)), List.append_assoc]
    rfl

theorem scanNumberFrom_zero {ty : NumberType} (hrest : EndsNumber rest) (buffer : List Char) :
    scanNumberFrom .zero ty buffer rest = some (ty, buffer, rest) := by
  cases rest with
  | nil => rfl
  | cons c input =>
    unfold scanNumberFrom
    rw [(hrest c input rfl).1]

/-- The text of a number other than zero starts with another digit. -/
theorem exists_toDigits {n : Nat} (h : 0 < n) :
    ∃ d ds, Nat.toDigits 10 n = d :: ds ∧ d ≠ '0' := by
  induction n using Nat.strong_induction_on with
  | _ n ih =>
    rcases Nat.lt_or_ge n 10 with hlt | hge
    · have hdigit : ∀ m, m < 10 → 0 < m → Nat.digitChar m ≠ '0' := by decide
      exact ⟨Nat.digitChar n, [], Nat.toDigits_of_lt_base hlt, hdigit n hlt h⟩
    · obtain ⟨d, ds, hdigits, hd⟩ := ih (n / 10) (Nat.div_lt_self h (by decide))
        (Nat.div_pos hge (by decide))
      refine ⟨d, ds ++ [Nat.digitChar (n % 10)], ?_, hd⟩
      rw [Nat.toDigits_of_base_le (by decide) hge, hdigits, List.cons_append]

theorem isDigit_toDigits {n : Nat} : ∀ c, c ∈ Nat.toDigits 10 n → c.isDigit :=
  fun _ => Nat.isDigit_of_mem_toDigits (by decide) (by decide)

theorem scanFrom_number (h : c = '-' ∨ c.isDigit) :
    scanFrom strtod c input = scanNumber strtod c input := by
  unfold scanFrom
  split
  case h_12 => rw [if_pos h]
  all_goals exact absurd h (by decide)

theorem isSpace_number (h : c = '-' ∨ c.isDigit) : isSpace c = false := by
  unfold isSpace
  rw [decide_eq_false_iff_not]
  rintro (rfl | rfl | rfl | rfl) <;> exact absurd h (by decide)

/-- The digits behind a minus. -/
theorem scanNumberFrom_minus {n : Nat} {ty : NumberType} {buffer : List Char}
    (hrest : EndsNumber rest) :
    scanNumberFrom .minus ty buffer (Nat.toDigits 10 n ++ rest) =
      some (ty, buffer ++ Nat.toDigits 10 n, rest) := by
  rcases Nat.eq_zero_or_pos n with rfl | hpos
  · rw [Nat.toDigits_zero]
    exact scanNumberFrom_zero hrest _
  · obtain ⟨d, ds, hdigits, hd⟩ := exists_toDigits hpos
    have hall := isDigit_toDigits (n := n)
    rw [hdigits] at hall ⊢
    have hnext : NumberState.minus.next d = .goto .any1 := by
      unfold NumberState.next
      rw [if_pos (hall d List.mem_cons_self)]
      show NumberStep.goto (if d = '0' then _ else _) = _
      rw [if_neg hd]
    rw [List.cons_append]
    unfold scanNumberFrom
    rw [hnext]
    show scanNumberFrom .any1 ty (buffer ++ [d]) (ds ++ rest) = _
    rw [scanNumberFrom_digits (fun c hc => hall c (List.mem_cons_of_mem _ hc)) hrest,
      List.append_assoc]
    rfl

theorem scan_negative {n : Nat} (hn : n ≤ 2 ^ 63) (hrest : EndsNumber rest) :
    scan strtod ('-' :: Nat.toDigits 10 n ++ rest) =
      some (.valueInteger (BitVec.ofInt 64 (-n)), rest) := by
  rw [List.cons_append, scan_cons rfl, scanFrom_number (.inl rfl)]
  unfold scanNumber
  show (scanNumberFrom .minus .integer ['-'] (Nat.toDigits 10 n ++ rest)).bind _ = _
  rw [scanNumberFrom_minus hrest]
  show some (convertNumber strtod .integer ('-' :: Nat.toDigits 10 n), rest) = _
  unfold convertNumber
  dsimp only [List.tail_cons]
  rw [Nat.ofDigitChars_ten_toDigits, if_pos hn]

theorem scan_unsigned {n : Nat} (hn : n < 2 ^ 64) (hrest : EndsNumber rest) :
    scan strtod (Nat.toDigits 10 n ++ rest) =
      some (.valueUnsigned (BitVec.ofNat 64 n), rest) := by
  obtain ⟨c, ds, hdigits, hfrom⟩ : ∃ c ds, Nat.toDigits 10 n = c :: ds ∧
      scanNumberFrom (if c = '0' then .zero else .any1) .unsigned [c] (ds ++ rest) =
        some (.unsigned, c :: ds, rest) := by
    rcases Nat.eq_zero_or_pos n with rfl | hpos
    · exact ⟨'0', [], Nat.toDigits_zero 10, scanNumberFrom_zero hrest _⟩
    · obtain ⟨d, ds, hdigits, hd⟩ := exists_toDigits hpos
      have hall := isDigit_toDigits (n := n)
      rw [hdigits] at hall
      refine ⟨d, ds, hdigits, ?_⟩
      rw [if_neg hd, scanNumberFrom_digits (fun c hc => hall c (List.mem_cons_of_mem _ hc)) hrest]
      rfl
  have hc : c = '-' ∨ c.isDigit := by
    right
    apply isDigit_toDigits (n := n)
    rw [hdigits]
    exact List.mem_cons_self
  have hminus : c ≠ '-' := by
    rintro rfl
    have hdigit := isDigit_toDigits (n := n) '-'
    rw [hdigits] at hdigit
    exact absurd (hdigit List.mem_cons_self) (by decide)
  have htype : (if c = '0' then NumberState.zero else .any1).numberType .unsigned = .unsigned := by
    split <;> rfl
  rw [hdigits, List.cons_append, scan_cons (isSpace_number hc), scanFrom_number hc]
  unfold scanNumber
  rw [if_neg hminus]
  dsimp only
  rw [htype, hfrom]
  show some (convertNumber strtod .unsigned (c :: ds), rest) = _
  rw [← hdigits]
  unfold convertNumber
  dsimp only
  rw [Nat.ofDigitChars_ten_toDigits, if_pos hn]

theorem getCodepoint_hex4 {n : Nat} (hn : n < 0x10000) :
    getCodepoint (hex4 n ++ input) = some (n, input) := by
  have hdigit : ∀ d, d < 16 → hexDigit (Nat.digitChar d) = some d := by decide
  have hnext : ∀ {d codepoint factor : Nat} {factors : List Nat} {input : List Char}, d < 16 →
      addDigits codepoint (factor :: factors) (Nat.digitChar d :: input) =
        addDigits (codepoint + d <<< factor) factors input := by
    intro d codepoint factor factors input hd
    conv_lhs => unfold addDigits
    rw [hdigit d hd]
  have hvalue : 0 + (n / 0x1000) <<< 12 + (n / 0x100 % 16) <<< 8 + (n / 0x10 % 16) <<< 4 +
      (n % 16) <<< 0 = n := by
    simp only [Nat.shiftLeft_eq]
    omega
  unfold getCodepoint hex4
  rw [List.cons_append, hnext (Nat.div_lt_of_lt_mul hn), List.cons_append,
    hnext (Nat.mod_lt _ (by decide)), List.cons_append, hnext (Nat.mod_lt _ (by decide)),
    List.cons_append, hnext (Nat.mod_lt _ (by decide)), hvalue]
  rfl

/-- A code point of the basic plane. -/
theorem scanEscape_hex4 {n : Nat} (hn : n < 0x10000) (hvalid : n < 0xD800 ∨ 0xDFFF < n) :
    scanEscape ('u' :: (hex4 n ++ input)) = some (Char.ofNat n, input) := by
  unfold scanEscape
  dsimp only
  rw [if_pos rfl, getCodepoint_hex4 hn]
  show (if 0xD800 ≤ n ∧ n ≤ 0xDBFF then scanSurrogate n input
    else if 0xDC00 ≤ n ∧ n ≤ 0xDFFF then none else some (Char.ofNat n, input)) = _
  rw [if_neg (by omega), if_neg (by omega)]

/-- A code point above it, as two surrogates. -/
theorem scanEscape_surrogates {n : Nat} (hlow : 0x10000 ≤ n) (hhigh : n < 0x110000) :
    scanEscape ('u' :: (hex4 (0xD7C0 + n / 0x400) ++
      ('\\' :: 'u' :: (hex4 (0xDC00 + n % 0x400) ++ input)))) = some (Char.ofNat n, input) := by
  have hvalue : (0xD7C0 + n / 0x400) * 0x400 + (0xDC00 + n % 0x400) - 0x35FDC00 = n := by omega
  unfold scanEscape
  dsimp only
  rw [if_pos rfl, getCodepoint_hex4 (by omega)]
  show (if 0xD800 ≤ 0xD7C0 + n / 0x400 ∧ 0xD7C0 + n / 0x400 ≤ 0xDBFF then
    scanSurrogate (0xD7C0 + n / 0x400) _ else _) = _
  rw [if_pos (by omega)]
  unfold scanSurrogate
  dsimp only
  rw [if_pos ⟨rfl, rfl⟩, getCodepoint_hex4 (by omega)]
  show (if 0xDC00 ≤ 0xDC00 + n % 0x400 ∧ 0xDC00 + n % 0x400 ≤ 0xDFFF then
    some (Char.ofNat ((0xD7C0 + n / 0x400) * 0x400 + (0xDC00 + n % 0x400) - 0x35FDC00), input)
    else none) = _
  rw [if_pos (by omega), hvalue]

theorem scanString_escape {e : Char} (h : scanEscape input = some (e, rest)) (buffer : List Char) :
    scanString buffer ('\\' :: input) = scanString (buffer ++ [e]) rest := by
  rw [scanString, if_neg (by decide), if_pos rfl]
  split
  · next hnone => cases h.symm.trans hnone
  · next hsome =>
    cases h.symm.trans hsome
    rfl

/-- A character comes back from its escape. -/
theorem scanString_escapeChar (ensureAscii : Bool) (buffer : List Char) :
    scanString buffer (escapeChar ensureAscii c ++ input) = scanString (buffer ++ [c]) input := by
  have hof : ∀ {n}, c.toNat = n → Char.ofNat n = c := fun h => h ▸ Char.ofNat_toNat c
  unfold escapeChar
  split
  case h_1 h => exact hof h ▸ scanString_escape rfl buffer
  case h_2 h => exact hof h ▸ scanString_escape rfl buffer
  case h_3 h => exact hof h ▸ scanString_escape rfl buffer
  case h_4 h => exact hof h ▸ scanString_escape rfl buffer
  case h_5 h => exact hof h ▸ scanString_escape rfl buffer
  case h_6 h => exact hof h ▸ scanString_escape rfl buffer
  case h_7 h => exact hof h ▸ scanString_escape rfl buffer
  case h_8 hquote hbackslash =>
    have hvalid : c.toNat < 0xD800 ∨ 0xDFFF < c.toNat ∧ c.toNat < 0x110000 := c.valid
    split
    · split
      · next hplane =>
        have hescape : scanEscape ('u' :: (hex4 c.toNat ++ input)) =
            some (Char.ofNat c.toNat, input) :=
          scanEscape_hex4 (Nat.lt_succ_of_le hplane) (hvalid.imp_right And.left)
        rw [Char.ofNat_toNat] at hescape
        exact scanString_escape hescape buffer
      · next hplane =>
        have hescape : scanEscape ('u' :: (hex4 (0xD7C0 + c.toNat / 0x400) ++
            ('\\' :: 'u' :: (hex4 (0xDC00 + c.toNat % 0x400) ++ input)))) =
              some (Char.ofNat c.toNat, input) :=
          scanEscape_surrogates (Nat.lt_of_not_le hplane) (by omega)
        rw [Char.ofNat_toNat] at hescape
        exact scanString_escape hescape buffer
    · next hraw =>
      have hne : c ≠ '\"' := by
        rintro rfl
        exact hquote rfl
      have hne' : c ≠ '\\' := by
        rintro rfl
        exact hbackslash rfl
      rw [List.singleton_append]
      conv_lhs => rw [scanString]
      rw [if_neg hne, if_neg hne', if_neg (by omega)]

theorem scanString_dumpEscaped (ensureAscii : Bool) (s : List Char) (buffer : List Char) :
    scanString buffer (s.flatMap (escapeChar ensureAscii) ++ '\"' :: rest) =
      some (buffer ++ s, rest) := by
  induction s generalizing buffer with
  | nil =>
    rw [List.flatMap_nil, List.nil_append, List.append_nil, scanString, if_pos rfl]
  | cons c s ih =>
    rw [List.flatMap_cons, List.append_assoc, scanString_escapeChar, ih, List.append_assoc]
    rfl

theorem scan_quoted (ensureAscii : Bool) (s : String) :
    scan strtod (quoted ensureAscii s rest) = some (.valueString s, rest) := by
  unfold quoted
  rw [scan_cons rfl]
  show (scanString [] (s.toList.flatMap (escapeChar ensureAscii) ++ '\"' :: rest)).map _ = _
  rw [scanString_dumpEscaped, List.nil_append]
  show some (Token.valueString (String.ofList s.toList), rest) = _
  rw [String.ofList_toList]

end Lexing

/-! ## 3. The round trip -/

/-- Values without floating-point numbers, in which `numberInteger` is negative: these are told
apart by their texts. -/
inductive Exact : Json F → Prop
  | null : Exact .null
  | boolean (b : Bool) : Exact (.boolean b)
  | numberUnsigned (n : BitVec 64) : Exact (.numberUnsigned n)
  | numberInteger {n : BitVec 64} (h : n.toInt < 0) : Exact (.numberInteger n)
  | string (s : String) : Exact (.string s)
  | array {es : List (Json F)} (h : ∀ e, e ∈ es → Exact e) : Exact (.array es)
  | object {ms : List (String × Json F)} (h : ∀ m, m ∈ ms → Exact m.2) : Exact (.object ms)

section RoundTrip

variable {strtod : List Char → Option F} {dumpFloat : F → List Char} {ensureAscii : Bool}
  {rest : List Char}

theorem endsNumber_nil : EndsNumber [] := nofun

theorem endsNumber_dumpElements (es : List (Json F)) :
    EndsNumber (dumpElements dumpFloat ensureAscii es ++ rest) := by
  intro c input h
  cases es with
  | nil =>
    cases h
    decide
  | cons e es =>
    cases h
    decide

theorem endsNumber_dumpMembers (ms : List (String × Json F)) :
    EndsNumber (dumpMembers dumpFloat ensureAscii ms ++ rest) := by
  intro c input h
  cases ms with
  | nil =>
    cases h
    decide
  | cons m ms =>
    cases h
    decide

theorem tokens_comma (input : List Char) :
    tokens strtod (',' :: input) = .valueSeparator :: tokens strtod input :=
  tokens_step rfl rfl

theorem tokens_colon (input : List Char) :
    tokens strtod (':' :: input) = .nameSeparator :: tokens strtod input :=
  tokens_step rfl rfl

theorem tokens_bracket (input : List Char) :
    tokens strtod ('[' :: input) = .beginArray :: tokens strtod input :=
  tokens_step rfl rfl

theorem tokens_brace (input : List Char) :
    tokens strtod ('{' :: input) = .beginObject :: tokens strtod input :=
  tokens_step rfl rfl

theorem tokens_quoted (s : String) : tokens strtod (quoted ensureAscii s rest) =
    .valueString s :: tokens strtod rest :=
  tokens_step (scan_quoted ensureAscii s) rfl

theorem quoted_append (s : String) (input : List Char) :
    quoted ensureAscii s input ++ rest = quoted ensureAscii s (input ++ rest) := by
  simp only [quoted, List.cons_append, List.append_assoc]

theorem tokens_unsigned (n : BitVec 64) (hrest : EndsNumber rest) :
    tokens strtod ((dumpInteger false n).2 ++ rest) = .valueUnsigned n :: tokens strtod rest := by
  have htext : integerText false n = Nat.toDigits 10 n.toNat := if_neg nofun
  rw [dumpInteger_text, htext]
  have hscan : scan strtod (Nat.toDigits 10 n.toNat ++ rest) =
      some (.valueUnsigned (BitVec.ofNat 64 n.toNat), rest) := scan_unsigned n.isLt hrest
  rw [BitVec.ofNat_toNat, BitVec.setWidth_eq] at hscan
  exact tokens_step hscan rfl

theorem tokens_negative {n : BitVec 64} (hn : n.toInt < 0) (hrest : EndsNumber rest) :
    tokens strtod ((dumpInteger true n).2 ++ rest) = .valueInteger n :: tokens strtod rest := by
  have htext : integerText true n = '-' :: Nat.toDigits 10 n.toInt.natAbs := if_pos ⟨rfl, hn⟩
  have habs : -(n.toInt.natAbs : Int) = n.toInt := by omega
  have hle : n.toInt.natAbs ≤ 2 ^ 63 := by
    have := BitVec.le_toInt n
    omega
  rw [dumpInteger_text, htext]
  have hscan : scan strtod ('-' :: Nat.toDigits 10 n.toInt.natAbs ++ rest) =
      some (.valueInteger (BitVec.ofInt 64 (-n.toInt.natAbs)), rest) := scan_negative hle hrest
  rw [habs, BitVec.ofInt_toInt] at hscan
  exact tokens_step hscan rfl

mutual

/-- The tokens of a text are those of the value. -/
theorem tokens_dump (j : Json F) (h : Exact j) (rest : List Char) (hrest : EndsNumber rest) :
    tokens strtod (dump dumpFloat ensureAscii j ++ rest) = tokensOf j ++ tokens strtod rest := by
  match j with
  | .null => exact tokens_step rfl rfl
  | .boolean true => exact tokens_step rfl rfl
  | .boolean false => exact tokens_step rfl rfl
  | .numberUnsigned n =>
    rw [dump]
    exact tokens_unsigned n hrest
  | .numberInteger n =>
    cases h with
    | numberInteger hn =>
      rw [dump]
      exact tokens_negative hn hrest
  | .numberFloat x => cases h
  | .string s =>
    rw [dump, quoted_append, tokens_quoted]
    rfl
  | .array [] => exact (tokens_bracket (']' :: rest)).trans (congrArg _ (tokens_step rfl rfl))
  | .object [] => exact (tokens_brace ('}' :: rest)).trans (congrArg _ (tokens_step rfl rfl))
  | .array (e :: es) =>
    cases h with
    | array h =>
      rw [dump, List.cons_append, List.append_assoc, tokens_bracket,
        tokens_dump e (h e List.mem_cons_self) _ (endsNumber_dumpElements es),
        tokens_dumpElements es (fun x hx => h x (List.mem_cons_of_mem _ hx)), tokensOf,
        List.cons_append, List.append_assoc]
  | .object ((k, e) :: ms) =>
    cases h with
    | object h =>
      rw [dump, List.cons_append, quoted_append, tokens_brace, tokens_quoted, List.cons_append,
        List.append_assoc, tokens_colon,
        tokens_dump e (h _ List.mem_cons_self) _ (endsNumber_dumpMembers ms),
        tokens_dumpMembers ms (fun m hm => h m (List.mem_cons_of_mem _ hm)), tokensOf,
        List.cons_append, List.cons_append, List.cons_append, List.append_assoc]

theorem tokens_dumpElements (es : List (Json F)) (h : ∀ e, e ∈ es → Exact e) (rest : List Char) :
    tokens strtod (dumpElements dumpFloat ensureAscii es ++ rest) =
      arrayTail es ++ tokens strtod rest := by
  match es with
  | [] => exact tokens_step rfl rfl
  | e :: es =>
    rw [dumpElements, List.cons_append, List.append_assoc, tokens_comma,
      tokens_dump e (h e List.mem_cons_self) _ (endsNumber_dumpElements es),
      tokens_dumpElements es (fun x hx => h x (List.mem_cons_of_mem _ hx)), arrayTail,
      List.cons_append, List.append_assoc]

theorem tokens_dumpMembers (ms : List (String × Json F)) (h : ∀ m, m ∈ ms → Exact m.2)
    (rest : List Char) :
    tokens strtod (dumpMembers dumpFloat ensureAscii ms ++ rest) =
      objectTail ms ++ tokens strtod rest := by
  match ms with
  | [] => exact tokens_step rfl rfl
  | (k, e) :: ms =>
    rw [dumpMembers, List.cons_append, quoted_append, tokens_comma, tokens_quoted, List.cons_append,
      List.append_assoc, tokens_colon,
      tokens_dump e (h _ List.mem_cons_self) _ (endsNumber_dumpMembers ms),
      tokens_dumpMembers ms (fun m hm => h m (List.mem_cons_of_mem _ hm)), objectTail,
      List.cons_append, List.cons_append, List.cons_append, List.append_assoc]

end

/-- No text of a value starts with a byte order mark. -/
theorem skipBOM_dump {j : Json F} (h : Exact j) :
    skipBOM (dump dumpFloat ensureAscii j) = some (dump dumpFloat ensureAscii j) := by
  have hdigits : ∀ {n : Nat} {c : Char} {cs : List Char}, Nat.toDigits 10 n = c :: cs →
      skipBOM (c :: cs) = some (c :: cs) := by
    intro n c cs hdigits
    have hdigit : c.isDigit := isDigit_toDigits c (hdigits ▸ List.mem_cons_self)
    have hlt : c.toNat ≤ 57 := (Char.isDigit_iff_toNat.mp hdigit).2
    have hne : c.toNat ≠ 0xFEFF := fun h => absurd (h ▸ hlt) (by decide)
    have hout : ¬ (0xF000 ≤ c.toNat ∧ c.toNat ≤ 0xFFFF) := fun h =>
      absurd (Nat.le_trans h.1 hlt) (by decide)
    unfold skipBOM
    dsimp only
    rw [if_neg hne, if_neg hout]
  cases h with
  | boolean b => cases b <;> rfl
  | array =>
    rename_i es _
    cases es <;> rfl
  | object =>
    rename_i ms _
    cases ms <;> rfl
  | numberUnsigned n =>
    have htext : integerText false n = Nat.toDigits 10 n.toNat := if_neg nofun
    rw [dump, dumpInteger_text, htext]
    cases hn : Nat.toDigits 10 n.toNat with
    | nil => rfl
    | cons c cs => exact hdigits hn
  | @numberInteger n hn =>
    have htext : integerText true n = '-' :: Nat.toDigits 10 n.toInt.natAbs := if_pos ⟨rfl, hn⟩
    rw [dump, dumpInteger_text, htext]
    rfl
  | _ => rfl

theorem parse_dump {j : Json F} (h : Exact j) :
    parse strtod (String.ofList (dump dumpFloat ensureAscii j)) = some (canonical j) := by
  have hinput : skipBOM (String.ofList (dump dumpFloat ensureAscii j)).toList =
      some (dump dumpFloat ensureAscii j) := by
    rw [String.toList_ofList]
    exact skipBOM_dump h
  have htokens : tokens strtod (dump dumpFloat ensureAscii j ++ []) =
      tokensOf j ++ tokens strtod [] := tokens_dump j h [] endsNumber_nil
  rw [List.append_nil] at htokens
  refine parse_of_tokens hinput ?_
  rw [htokens]
  exact congrArg _ (tokens_end rfl rfl)

end RoundTrip

/-- A value comes back from its text with its members sorted, and a value that was accepted once
comes back as it is. -/
theorem dump_roundTrip (strtod : List Char → Option F) (dumpFloat : F → List Char)
    (ensureAscii : Bool) :
    (∀ j, Exact j →
      parse strtod (String.ofList (dump dumpFloat ensureAscii j)) = some (canonical j)) ∧
    (∀ content j, parse strtod content = some j → Sorted j ∧
      (Exact j → parse strtod (String.ofList (dump dumpFloat ensureAscii j)) = some j)) := by
  refine ⟨fun j h => parse_dump h, fun content j haccepted => ?_⟩
  have hsorted := parse_sorted haccepted
  refine ⟨hsorted, fun h => ?_⟩
  rw [parse_dump h, canonical_of_sorted j hsorted]

end JsonText

end MicroRiscv
