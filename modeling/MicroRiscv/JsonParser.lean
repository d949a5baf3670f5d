import Mathlib.Data.String.Basic
import MicroRiscv.JsonLexer

/-!
# The JSON parser

`nlohmann::json::parse` on the tokens of a text: the loop of `sax_parse_internal` with its stack
of open arrays and objects, and `json_sax_dom_parser`, which builds the value. Every error is an
exception, so the result is an `Option`.

`tokensOf` is the grammar: the tokens of a value whose members come in any order, repetitions
included. `canonical` is the value with the members as `std::map` keeps them.

Results:
1. `parseValue_tokensOf`, `parseValue_sound`: the loop accepts the grammar and nothing else.
2. `parse_accepts_iff`: a text is accepted exactly if its tokens are those of a value;
   `parse_nul`: what comes behind a NUL does not count.
3. `parse_sorted`: members are sorted and their keys distinct.
-/

namespace MicroRiscv

namespace JsonText

variable {F : Type}

/-! ## Building values -/

/-- An assignment at a key of `std::map`. -/
def insertMember (key : String) (j : Json F) : List (String × Json F) → List (String × Json F)
  | [] => [(key, j)]
  | (k, x) :: members =>
    if key < k then (key, j) :: (k, x) :: members
    else if k < key then (k, x) :: insertMember key j members
    else (k, j) :: members

/-- An open array or object. Its elements are kept here until it ends; the key is that of
`object_element`. -/
inductive Frame (F : Type)
  | array (elements : List (Json F))
  | object (members : List (String × Json F)) (key : Option String)

def Frame.value : Frame F → Json F
  | .array elements => .array elements
  | .object members _ => .object members

structure Sax (F : Type) where
  root : Json F
  refStack : List (Frame F)

namespace Sax

def start : Sax F := ⟨.null, []⟩

/-- The assertion on `object_element` is not modelled: there is a key in front of every value. -/
def handleValue (sax : Sax F) (j : Json F) : Sax F :=
  match sax.refStack with
  | [] => { sax with root := j }
  | .array elements :: stack => { sax with refStack := .array (elements ++ [j]) :: stack }
  | .object members (some key) :: stack =>
    { sax with refStack := .object (insertMember key j members) (some key) :: stack }
  | .object _ none :: _ => sax

def startArray (sax : Sax F) : Sax F := { sax with refStack := .array [] :: sax.refStack }

def startObject (sax : Sax F) : Sax F := { sax with refStack := .object [] none :: sax.refStack }

def key (sax : Sax F) (k : String) : Sax F :=
  match sax.refStack with
  | .object members _ :: stack => { sax with refStack := .object members (some k) :: stack }
  | _ => sax

/-- `end_array` and `end_object`. -/
def endContainer (sax : Sax F) : Sax F :=
  match sax.refStack with
  | frame :: stack => { sax with refStack := stack }.handleValue frame.value
  | [] => sax

end Sax

/-! ## Parsing -/

/-- The value of a token that is one by itself. -/
def Token.value : Token F → Option (Json F)
  | .literalTrue => some (.boolean true)
  | .literalFalse => some (.boolean false)
  | .literalNull => some .null
  | .valueString s => some (.string s)
  | .valueUnsigned n => some (.numberUnsigned n)
  | .valueInteger n => some (.numberInteger n)
  | .valueFloat (some x) => some (.numberFloat x)
  | _ => none

/-! `sax_parse_internal`. `true` stands for an array on the stack `states`. -/

mutual

/-- The `switch`; `last_token` is the first one of the list. -/
def parseValue : List (Token F) → List Bool → Sax F → Option (Sax F × List (Token F))
  | [], _, _ => none
  | t :: ts, states, sax =>
    match t with
    | .beginObject =>
      match ts with
      | .endObject :: ts => evaluateState ts states sax.startObject.endContainer
      | .valueString k :: .nameSeparator :: ts =>
        parseValue ts (false :: states) (sax.startObject.key k)
      | _ => none
    | .beginArray =>
      match ts with
      | .endArray :: ts => evaluateState ts states sax.startArray.endContainer
      | ts => parseValue ts (true :: states) sax.startArray
    | t =>
      match t.value with
      | some j => evaluateState ts states (sax.handleValue j)
      | none => none

/-- Behind a value; the next token is the first one of the list. -/
def evaluateState : List (Token F) → List Bool → Sax F → Option (Sax F × List (Token F))
  | ts, [], sax => some (sax, ts)
  | [], _ :: _, _ => none
  | t :: ts, true :: states, sax =>
    match t with
    | .valueSeparator => parseValue ts (true :: states) sax
    | .endArray => evaluateState ts states sax.endContainer
    | _ => none
  | t :: ts, false :: states, sax =>
    match t with
    | .valueSeparator =>
      match ts with
      | .valueString k :: .nameSeparator :: ts => parseValue ts (false :: states) (sax.key k)
      | _ => none
    | .endObject => evaluateState ts states sax.endContainer
    | _ => none

end

/-- `parser::parse` with `strict`. -/
def parseTokens (ts : List (Token F)) : Option (Json F) :=
  match parseValue ts [] Sax.start with
  | some (sax, .endOfInput :: _) => some sax.root
  | _ => none

def parse (strtod : List Char → Option F) (content : String) : Option (Json F) :=
  (skipBOM content.toList).bind fun input => parseTokens (tokens strtod input)

/-! ## The grammar -/

mutual

def tokensOf : Json F → List (Token F)
  | .null => [.literalNull]
  | .boolean true => [.literalTrue]
  | .boolean false => [.literalFalse]
  | .numberUnsigned n => [.valueUnsigned n]
  | .numberInteger n => [.valueInteger n]
  | .numberFloat x => [.valueFloat (some x)]
  | .string s => [.valueString s]
  | .array [] => [.beginArray, .endArray]
  | .array (e :: es) => .beginArray :: (tokensOf e ++ arrayTail es)
  | .object [] => [.beginObject, .endObject]
  | .object ((k, e) :: ms) =>
    .beginObject :: .valueString k :: .nameSeparator :: (tokensOf e ++ objectTail ms)

def arrayTail : List (Json F) → List (Token F)
  | [] => [.endArray]
  | e :: es => .valueSeparator :: (tokensOf e ++ arrayTail es)

def objectTail : List (String × Json F) → List (Token F)
  | [] => [.endObject]
  | (k, e) :: ms =>
    .valueSeparator :: .valueString k :: .nameSeparator :: (tokensOf e ++ objectTail ms)

end

mutual

def canonical : Json F → Json F
  | .array es => .array (canonicalElements es)
  | .object ms => .object (insertMembers [] ms)
  | .null => .null
  | .boolean b => .boolean b
  | .numberUnsigned n => .numberUnsigned n
  | .numberInteger n => .numberInteger n
  | .numberFloat x => .numberFloat x
  | .string s => .string s

def canonicalElements : List (Json F) → List (Json F)
  | [] => []
  | e :: es => canonical e :: canonicalElements es

/-- The members of `ms` one after the other into `members`. -/
def insertMembers (members : List (String × Json F)) : List (String × Json F) →
    List (String × Json F)
  | [] => members
  | (k, e) :: ms => insertMembers (insertMember k (canonical e) members) ms

end

/-! ## 1. The loop and the grammar -/

/-- A value starts with a token that does not end an array. -/
theorem tokensOf_ne_endArray (j : Json F) (rest ts : List (Token F)) :
    tokensOf j ++ rest ≠ .endArray :: ts := by
  intro h
  cases j with
  | boolean b => cases b <;> cases h
  | array es => cases es <;> cases h
  | object ms => cases ms <;> cases h
  | _ => cases h

theorem parseValue_beginArray {ts : List (Token F)} {states : List Bool} {sax : Sax F}
    (h : ∀ ts', ts ≠ .endArray :: ts') :
    parseValue (.beginArray :: ts) states sax = parseValue ts (true :: states) sax.startArray := by
  rw [parseValue]
  exact h

mutual

/-- The loop on a value of the grammar. -/
theorem parseValue_tokensOf (j : Json F) (rest : List (Token F)) (states : List Bool)
    (sax : Sax F) : parseValue (tokensOf j ++ rest) states sax =
      evaluateState rest states (sax.handleValue (canonical j)) := by
  obtain ⟨root, stack⟩ := sax
  match j with
  | .null => rfl
  | .boolean true => rfl
  | .boolean false => rfl
  | .numberUnsigned n => rfl
  | .numberInteger n => rfl
  | .numberFloat x => rfl
  | .string s => rfl
  | .array [] => rfl
  | .object [] => rfl
  | .array (e :: es) =>
    rw [tokensOf, List.cons_append, List.append_assoc,
      parseValue_beginArray (tokensOf_ne_endArray e _), parseValue_tokensOf e]
    exact evaluateState_arrayTail es rest states root [canonical e] stack
  | .object ((k, e) :: ms) =>
    rw [tokensOf, List.cons_append, List.cons_append, List.cons_append, List.append_assoc]
    show parseValue (tokensOf e ++ (objectTail ms ++ rest)) (false :: states) _ = _
    rw [parseValue_tokensOf e]
    exact evaluateState_objectTail ms rest states root [(k, canonical e)] k stack

theorem evaluateState_arrayTail (es : List (Json F)) (rest : List (Token F)) (states : List Bool)
    (root : Json F) (acc : List (Json F)) (stack : List (Frame F)) :
    evaluateState (arrayTail es ++ rest) (true :: states) ⟨root, .array acc :: stack⟩ =
      evaluateState rest states
        (Sax.handleValue ⟨root, stack⟩ (.array (acc ++ canonicalElements es))) := by
  match es with
  | [] =>
    rw [canonicalElements, List.append_nil]
    rfl
  | e :: es =>
    rw [arrayTail, List.cons_append, List.append_assoc]
    show parseValue (tokensOf e ++ (arrayTail es ++ rest)) (true :: states) _ = _
    rw [parseValue_tokensOf e, canonicalElements, List.append_cons]
    exact evaluateState_arrayTail es rest states root (acc ++ [canonical e]) stack

theorem evaluateState_objectTail (ms : List (String × Json F)) (rest : List (Token F))
    (states : List Bool) (root : Json F) (acc : List (String × Json F)) (key : String)
    (stack : List (Frame F)) :
    evaluateState (objectTail ms ++ rest) (false :: states)
        ⟨root, .object acc (some key) :: stack⟩ =
      evaluateState rest states
        (Sax.handleValue ⟨root, stack⟩ (.object (insertMembers acc ms))) := by
  match ms with
  | [] => rfl
  | (k, e) :: ms =>
    rw [objectTail, List.cons_append, List.cons_append, List.cons_append, List.append_assoc]
    show parseValue (tokensOf e ++ (objectTail ms ++ rest)) (false :: states) _ = _
    rw [parseValue_tokensOf e]
    exact evaluateState_objectTail ms rest states root (insertMember k (canonical e) acc) k stack

end

/-- What the loop accepts, on lists of fewer than `n` tokens: a value and what comes behind it;
behind a value in an array or an object the other elements. -/
structure Accepts (n : Nat) (F : Type) : Prop where
  value : ∀ (ts : List (Token F)) (states : List Bool) (sax : Sax F)
    (r : Sax F × List (Token F)), ts.length < n → parseValue ts states sax = some r →
    ∃ j rest, ts = tokensOf j ++ rest ∧
      evaluateState rest states (sax.handleValue (canonical j)) = some r
  array : ∀ (ts : List (Token F)) (states : List Bool) (root : Json F) (acc : List (Json F))
    (stack : List (Frame F)) (r : Sax F × List (Token F)), ts.length < n →
    evaluateState ts (true :: states) ⟨root, .array acc :: stack⟩ = some r →
    ∃ es rest, ts = arrayTail es ++ rest ∧ evaluateState rest states
      (Sax.handleValue ⟨root, stack⟩ (.array (acc ++ canonicalElements es))) = some r
  object : ∀ (ts : List (Token F)) (states : List Bool) (root : Json F)
    (acc : List (String × Json F)) (key : String) (stack : List (Frame F))
    (r : Sax F × List (Token F)), ts.length < n →
    evaluateState ts (false :: states) ⟨root, .object acc (some key) :: stack⟩ = some r →
    ∃ ms rest, ts = objectTail ms ++ rest ∧ evaluateState rest states
      (Sax.handleValue ⟨root, stack⟩ (.object (insertMembers acc ms))) = some r

section Sound

variable {n : Nat} {ts : List (Token F)} {states : List Bool} {root : Json F}
  {stack : List (Frame F)} {r : Sax F × List (Token F)}

theorem length_behind {ts rest : List (Token F)} (h : (ts ++ rest).length < n) :
    rest.length < n := by
  rw [List.length_append] at h
  exact Nat.lt_of_le_of_lt (Nat.le_add_left _ _) h

/-- A value of one token. -/
theorem tokensOf_of_value {t : Token F} {j : Json F} (h : t.value = some j) :
    tokensOf j = [t] ∧ canonical j = j := by
  cases t with
  | valueFloat x =>
    cases x with
    | none => cases h
    | some x =>
      cases h
      exact ⟨rfl, rfl⟩
  | literalTrue | literalFalse | literalNull | valueString | valueUnsigned | valueInteger =>
    cases h
    exact ⟨rfl, rfl⟩
  | _ => cases h

theorem Accepts.array_succ (h : Accepts n F) {acc : List (Json F)} (hlen : ts.length < n + 1)
    (hts : evaluateState ts (true :: states) ⟨root, .array acc :: stack⟩ = some r) :
    ∃ es rest, ts = arrayTail es ++ rest ∧ evaluateState rest states
      (Sax.handleValue ⟨root, stack⟩ (.array (acc ++ canonicalElements es))) = some r := by
  cases ts with
  | nil => cases hts
  | cons t ts =>
    replace hlen : ts.length < n := Nat.lt_of_succ_lt_succ hlen
    unfold evaluateState at hts
    split at hts
    · -- the next element, and then the rest of the array
      obtain ⟨e, rest, rfl, hrest⟩ := h.value _ _ _ _ hlen hts
      have hshort := length_behind hlen
      obtain ⟨es, rest, rfl, hend⟩ := h.array _ _ _ _ _ _ hshort hrest
      refine ⟨e :: es, rest, ?_, ?_⟩
      · rw [arrayTail, List.cons_append, List.append_assoc]
      · rw [canonicalElements, List.append_cons]
        exact hend
    · refine ⟨[], ts, rfl, ?_⟩
      rw [canonicalElements, List.append_nil]
      exact hts
    · cases hts

theorem Accepts.object_succ (h : Accepts n F) {acc : List (String × Json F)} {key : String}
    (hlen : ts.length < n + 1)
    (hts : evaluateState ts (false :: states) ⟨root, .object acc (some key) :: stack⟩ = some r) :
    ∃ ms rest, ts = objectTail ms ++ rest ∧ evaluateState rest states
      (Sax.handleValue ⟨root, stack⟩ (.object (insertMembers acc ms))) = some r := by
  cases ts with
  | nil => cases hts
  | cons t ts =>
    replace hlen : ts.length < n := Nat.lt_of_succ_lt_succ hlen
    unfold evaluateState at hts
    split at hts
    · split at hts
      · next k ts =>
        replace hlen : ts.length < n := Nat.lt_of_le_of_lt (Nat.le_add_right _ 2) hlen
        obtain ⟨e, rest, rfl, hrest⟩ := h.value _ _ _ _ hlen hts
        have hshort := length_behind hlen
        obtain ⟨ms, rest, rfl, hend⟩ := h.object _ _ _ _ _ _ _ hshort hrest
        refine ⟨(k, e) :: ms, rest, ?_, hend⟩
        rw [objectTail, List.cons_append, List.cons_append, List.cons_append, List.append_assoc]
      · cases hts
    · exact ⟨[], ts, rfl, hts⟩
    · cases hts

theorem Accepts.value_succ (h : Accepts n F) {sax : Sax F} (hlen : ts.length < n + 1)
    (hts : parseValue ts states sax = some r) :
    ∃ j rest, ts = tokensOf j ++ rest ∧
      evaluateState rest states (sax.handleValue (canonical j)) = some r := by
  obtain ⟨root, stack⟩ := sax
  cases ts with
  | nil => cases hts
  | cons t ts =>
    replace hlen : ts.length < n := Nat.lt_of_succ_lt_succ hlen
    unfold parseValue at hts
    split at hts
    · split at hts
      · exact ⟨.object [], _, rfl, hts⟩
      · next k ts =>
        replace hlen : ts.length < n := Nat.lt_of_le_of_lt (Nat.le_add_right _ 2) hlen
        obtain ⟨e, rest, rfl, hrest⟩ := h.value _ _ _ _ hlen hts
        have hshort := length_behind hlen
        obtain ⟨ms, rest, rfl, hend⟩ := h.object _ _ _ _ _ _ _ hshort hrest
        refine ⟨.object ((k, e) :: ms), rest, ?_, hend⟩
        rw [tokensOf, List.cons_append, List.cons_append, List.cons_append, List.append_assoc]
      · cases hts
    · split at hts
      · exact ⟨.array [], _, rfl, hts⟩
      · obtain ⟨e, rest, rfl, hrest⟩ := h.value _ _ _ _ hlen hts
        have hshort := length_behind hlen
        obtain ⟨es, rest, rfl, hend⟩ := h.array _ _ _ _ _ _ hshort hrest
        refine ⟨.array (e :: es), rest, ?_, hend⟩
        rw [tokensOf, List.cons_append, List.append_assoc]
    · split at hts
      · next j hj =>
        obtain ⟨htokens, hnormal⟩ := tokensOf_of_value hj
        refine ⟨j, ts, ?_, ?_⟩
        · rw [htokens]
          rfl
        · rw [hnormal]
          exact hts
      · cases hts

theorem accepts (n : Nat) : Accepts n F := by
  -- by a bound for the number of tokens: each of the loops hands a shorter rest to the next one
  induction n with
  | zero => exact ⟨nofun, nofun, nofun⟩
  | succ n ih =>
    exact ⟨fun _ _ _ _ => ih.value_succ, fun _ _ _ _ _ _ => ih.array_succ,
      fun _ _ _ _ _ _ _ => ih.object_succ⟩

end Sound

/-- The tokens that are accepted are those of a value and the end of the input, and what is
returned is this value. -/
theorem parseTokens_iff {ts : List (Token F)} {j : Json F} :
    parseTokens ts = some j ↔
      ∃ x rest, ts = tokensOf x ++ .endOfInput :: rest ∧ j = canonical x := by
  constructor
  · intro h
    unfold parseTokens at h
    split at h
    · next sax rest hts =>
      cases h
      obtain ⟨x, rest', rfl, hstate⟩ := (accepts (ts.length + 1)).value _ _ _ _
        (Nat.lt_succ_self _) hts
      rw [evaluateState] at hstate
      cases hstate
      exact ⟨x, rest, rfl, rfl⟩
    · cases h
  · rintro ⟨x, rest, rfl, rfl⟩
    unfold parseTokens
    rw [parseValue_tokensOf]
    rfl

/-! ## 2. Texts -/

section Texts

variable {strtod : List Char → Option F}

/-- The lexer is at its end behind `end_of_input`. -/
theorem tokens_endOfInput {input : List Char}
    {ts rest : List (Token F)} (h : tokens strtod input = ts ++ .endOfInput :: rest) :
    rest = [] := by
  fun_induction tokens strtod input generalizing ts with
  | case1 input hscan =>
    cases ts with
    | nil => cases h
    | cons t ts =>
      obtain ⟨-, h⟩ := List.cons.inj h
      exact absurd h.symm (List.append_ne_nil_of_right_ne_nil _ (List.cons_ne_nil _ _))
  | case2 input t rest' hscan hend =>
    cases ts with
    | nil => exact (List.cons.inj h).2.symm
    | cons t ts =>
      obtain ⟨-, h⟩ := List.cons.inj h
      exact absurd h.symm (List.append_ne_nil_of_right_ne_nil _ (List.cons_ne_nil _ _))
  | case3 input t rest' hscan hend _ ih =>
    cases ts with
    | nil =>
      obtain ⟨rfl, -⟩ := List.cons.inj h
      cases hend
    | cons t ts => exact ih (List.cons.inj h).2

theorem tokens_of_parse {content : String} {j : Json F} (h : parse strtod content = some j) :
    ∃ input x, skipBOM content.toList = some input ∧
      tokens strtod input = tokensOf x ++ [.endOfInput] ∧ j = canonical x := by
  unfold parse at h
  obtain ⟨input, hinput, h⟩ := Option.bind_eq_some_iff.mp h
  obtain ⟨x, rest, htokens, rfl⟩ := parseTokens_iff.mp h
  obtain rfl := tokens_endOfInput htokens
  exact ⟨input, x, hinput, htokens, rfl⟩

theorem parse_of_tokens {content : String} {input : List Char} {x : Json F}
    (hinput : skipBOM content.toList = some input)
    (htokens : tokens strtod input = tokensOf x ++ [.endOfInput]) :
    parse strtod content = some (canonical x) := by
  unfold parse
  exact Option.bind_eq_some_iff.mpr ⟨input, hinput, parseTokens_iff.mpr ⟨x, [], htokens, rfl⟩⟩

/-- A text is accepted exactly if its tokens, behind a byte order mark, are those of a value. -/
theorem parse_accepts_iff (strtod : List Char → Option F) (content : String) (j : Json F) :
    parse strtod content = some j ↔
      ∃ input x, skipBOM content.toList = some input ∧
        tokens strtod input = tokensOf x ++ [.endOfInput] ∧ j = canonical x := by
  constructor
  · exact tokens_of_parse
  · rintro ⟨input, x, hinput, htokens, rfl⟩
    exact parse_of_tokens hinput htokens

theorem skipBOM_nul (input tail : List Char) :
    ((skipBOM (input ++ nul :: tail)).map fun input => tokens strtod input) =
      (skipBOM input).map fun input => tokens strtod input := by
  cases input with
  | nil => exact congrArg some (tokens_nul [] tail)
  | cons c input =>
    rw [List.cons_append]
    unfold skipBOM
    dsimp only
    split
    · exact congrArg some (tokens_nul input tail)
    · split
      · rfl
      · exact congrArg some (tokens_nul (c :: input) tail)

/-- Whatever comes behind a NUL: the text is accepted as the one in front of the NUL is, with the
same value. -/
theorem parse_nul (strtod : List Char → Option F) (content tail : String) :
    parse strtod (content ++ String.singleton nul ++ tail) = parse strtod content := by
  have hchars : (content ++ String.singleton nul ++ tail).toList =
      content.toList ++ nul :: tail.toList := by
    rw [String.toList_append, String.toList_append, String.toList_singleton, List.append_assoc]
    rfl
  have hbind : ∀ o : Option (List Char), (o.bind fun input => parseTokens (tokens strtod input)) =
      (o.map fun input => tokens strtod input).bind parseTokens := fun o => by
    cases o <;> rfl
  unfold parse
  rw [hchars, hbind, skipBOM_nul, ← hbind]

end Texts

/-! ## 3. Members -/

/-- The keys of every object ascend. -/
inductive Sorted : Json F → Prop
  | null : Sorted .null
  | boolean (b : Bool) : Sorted (.boolean b)
  | numberUnsigned (n : BitVec 64) : Sorted (.numberUnsigned n)
  | numberInteger (n : BitVec 64) : Sorted (.numberInteger n)
  | numberFloat (x : F) : Sorted (.numberFloat x)
  | string (s : String) : Sorted (.string s)
  | array {es : List (Json F)} (h : ∀ e, e ∈ es → Sorted e) : Sorted (.array es)
  | object {ms : List (String × Json F)} (hkeys : ms.Pairwise fun m m' => m.1 < m'.1)
      (h : ∀ m, m ∈ ms → Sorted m.2) : Sorted (.object ms)

section Members

variable {key k : String} {j : Json F} {ms members : List (String × Json F)}

theorem mem_insertMember {m : String × Json F} (h : m ∈ insertMember key j ms) :
    m = (key, j) ∨ m ∈ ms := by
  induction ms with
  | nil => exact .inl (List.mem_singleton.mp h)
  | cons m' ms ih =>
    obtain ⟨k, x⟩ := m'
    unfold insertMember at h
    split at h
    · exact List.mem_cons.mp h
    · next hge =>
      split at h
      · rcases List.mem_cons.mp h with h | h
        · exact .inr (List.mem_cons.mpr (.inl h))
        · exact (ih h).imp_right (List.mem_cons_of_mem _)
      · next hle =>
        obtain rfl : key = k := le_antisymm (not_lt.mp hle) (not_lt.mp hge)
        exact (List.mem_cons.mp h).imp_right (List.mem_cons_of_mem _)

theorem pairwise_insertMember (h : ms.Pairwise fun m m' => m.1 < m'.1) :
    (insertMember key j ms).Pairwise fun m m' => m.1 < m'.1 := by
  induction ms with
  | nil => exact List.pairwise_singleton _ _
  | cons m ms ih =>
    obtain ⟨k, x⟩ := m
    obtain ⟨hhead, htail⟩ := List.pairwise_cons.mp h
    unfold insertMember
    split
    · next hlt =>
      refine List.pairwise_cons.mpr ⟨fun m hm => ?_, h⟩
      rcases List.mem_cons.mp hm with rfl | hm
      · exact hlt
      · exact lt_trans hlt (hhead m hm)
    · split
      · next hlt =>
        refine List.pairwise_cons.mpr ⟨fun m hm => ?_, ih htail⟩
        rcases mem_insertMember hm with rfl | hm
        · exact hlt
        · exact hhead m hm
      · exact List.pairwise_cons.mpr ⟨hhead, htail⟩

theorem insertMember_last (h : ∀ m, m ∈ ms → m.1 < key) :
    insertMember key j ms = ms ++ [(key, j)] := by
  induction ms with
  | nil => rfl
  | cons m ms ih =>
    obtain ⟨k, x⟩ := m
    have hlt : k < key := h _ List.mem_cons_self
    rw [insertMember, if_neg (lt_asymm hlt), if_pos hlt,
      ih fun m hm => h m (List.mem_cons_of_mem _ hm), List.cons_append]

end Members

mutual

theorem sorted_canonical : (j : Json F) → Sorted (canonical j)
  | .null => .null
  | .boolean b => .boolean b
  | .numberUnsigned n => .numberUnsigned n
  | .numberInteger n => .numberInteger n
  | .numberFloat x => .numberFloat x
  | .string s => .string s
  | .array es => by
    rw [canonical]
    exact .array (sorted_canonicalElements es)
  | .object ms => by
    rw [canonical]
    obtain ⟨hkeys, hvalues⟩ := sorted_insertMembers ms [] .nil (fun _ h => nomatch h)
    exact .object hkeys hvalues

theorem sorted_canonicalElements : (es : List (Json F)) → ∀ e, e ∈ canonicalElements es → Sorted e
  | [], _, h => nomatch h
  | e :: es, x, h => by
    rw [canonicalElements] at h
    rcases List.mem_cons.mp h with rfl | h
    · exact sorted_canonical e
    · exact sorted_canonicalElements es x h

theorem sorted_insertMembers : (ms members : List (String × Json F)) →
    (members.Pairwise fun m m' => m.1 < m'.1) → (∀ m, m ∈ members → Sorted m.2) →
    (insertMembers members ms).Pairwise (fun m m' => m.1 < m'.1) ∧
      ∀ m, m ∈ insertMembers members ms → Sorted m.2
  | [], members, hkeys, hvalues => by
    rw [insertMembers]
    exact ⟨hkeys, hvalues⟩
  | (k, e) :: ms, members, hkeys, hvalues => by
    rw [insertMembers]
    refine sorted_insertMembers ms _ (pairwise_insertMember hkeys) fun m hm => ?_
    rcases mem_insertMember hm with rfl | hm
    · exact sorted_canonical e
    · exact hvalues m hm

end

mutual

theorem canonical_of_sorted : (j : Json F) → Sorted j → canonical j = j
  | .null, _ => rfl
  | .boolean _, _ => rfl
  | .numberUnsigned _, _ => rfl
  | .numberInteger _, _ => rfl
  | .numberFloat _, _ => rfl
  | .string _, _ => rfl
  | .array es, h => by
    cases h with
    | array h => rw [canonical, canonicalElements_of_sorted es h]
  | .object ms, h => by
    cases h with
    | object hkeys h => rw [canonical, insertMembers_of_sorted ms [] hkeys h, List.nil_append]

theorem canonicalElements_of_sorted : (es : List (Json F)) → (∀ e, e ∈ es → Sorted e) →
    canonicalElements es = es
  | [], _ => rfl
  | e :: es, h => by
    rw [canonicalElements, canonical_of_sorted e (h e List.mem_cons_self),
      canonicalElements_of_sorted es fun x hx => h x (List.mem_cons_of_mem _ hx)]

theorem insertMembers_of_sorted : (ms members : List (String × Json F)) →
    ((members ++ ms).Pairwise fun m m' => m.1 < m'.1) → (∀ m, m ∈ ms → Sorted m.2) →
    insertMembers members ms = members ++ ms
  | [], members, _, _ => by rw [insertMembers, List.append_nil]
  | (k, e) :: ms, members, hkeys, h => by
    have hlast : ∀ m, m ∈ members → m.1 < k := fun m hm =>
      (List.pairwise_append.mp hkeys).2.2 m hm _ List.mem_cons_self
    rw [List.append_cons] at hkeys
    rw [insertMembers, canonical_of_sorted e (h _ List.mem_cons_self), insertMember_last hlast,
      insertMembers_of_sorted ms _ hkeys fun m hm => h m (List.mem_cons_of_mem _ hm),
      ← List.append_cons]

end

theorem canonicalElements_eq_map (es : List (Json F)) :
    canonicalElements es = es.map canonical := by
  induction es with
  | nil => rfl
  | cons e es ih => rw [canonicalElements, ih, List.map_cons]

/-- The members of what is accepted are sorted, whatever their order in the text. -/
theorem parse_sorted {strtod : List Char → Option F} {content : String} {j : Json F}
    (h : parse strtod content = some j) : Sorted j := by
  obtain ⟨_, x, -, -, rfl⟩ := tokens_of_parse h
  exact sorted_canonical x

end JsonText

end MicroRiscv
