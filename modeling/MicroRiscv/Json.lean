import Mathlib.Data.BitVec
import Mathlib.Data.Vector.Basic

/-!
# JSON values of the simulation server

The values that `nlohmann::json::parse` delivers, and the conversions and the lookup with
which the server takes them apart. A conversion throws when it fails, so it is an `Option`
here. The const `operator[]` has a third ending: on an object without the key its
assertion fails, and the program is built with assertions.

A number is a `double` when it has a fraction or an exponent, or is too large. `F` is the
type of these numbers and `toUnsigned` the conversion of the compiler to an unsigned type
of a given width.
-/

namespace MicroRiscv

/-- A value of `nlohmann::json`. Binary values come from other formats only. -/
inductive Json (F : Type)
  | null
  | boolean (b : Bool)
  | numberUnsigned (n : BitVec 64)
  | numberInteger (n : BitVec 64)
  | numberFloat (x : F)
  | string (s : String)
  | array (elements : List (Json F))
  | object (members : List (String × Json F))

/-- The assertions that a request could run into: that of `operator[]`, and the one in
`getFrame`. -/
inductive Assertion
  | keyExists
  | recvQueueNonempty
deriving DecidableEq, Repr

/-- How a piece of the program ends when it does not return. -/
inductive Signal
  | thrown
  | aborted (a : Assertion)
deriving DecidableEq, Repr

namespace Json

variable {F : Type} {α : Type}

def isNull : Json F → Bool
  | null => true
  | _ => false

/-- `at` with an index. -/
def at? (i : Nat) : Json F → Option (Json F)
  | array elements => elements[i]?
  | _ => none

/-- The const `operator[]` with a key. -/
def index (key : String) : Json F → Except Signal (Json F)
  | object members =>
    match members.lookup key with
    | some j => .ok j
    | none => .error (.aborted .keyExists)
  | _ => .error .thrown

/-! ## Conversions -/

section Get

variable (toUnsigned : (w : Nat) → F → BitVec w)

/-- `get_arithmetic_value`, for an unsigned type of `w` bits. -/
def getArithmeticValue (w : Nat) : Json F → Option (BitVec w)
  | numberUnsigned n => some (n.setWidth w)
  | numberInteger n => some (n.setWidth w)
  | numberFloat x => some (toUnsigned w x)
  | _ => none

/-- `from_json` for a type that is not one of the number types of the library: it takes a
boolean too. -/
def fromJsonArithmetic (w : Nat) : Json F → Option (BitVec w)
  | boolean b => some ((BitVec.ofBool b).setWidth w)
  | j => j.getArithmeticValue toUnsigned w

end Get

def getBool : Json F → Option Bool
  | boolean b => some b
  | _ => none

/-- The loop of `from_json_array_impl`: `arr[i] = j.at(i).get()` for all `i < n`. -/
def getElements (get : Json F → Option α) (j : Json F) : (n : Nat) → Option (Vector α n)
  | 0 => some #v[]
  | n + 1 => do
    let v ← getElements get j n
    let x ← j.at? n
    let a ← get x
    return v.push a

/-- `get<std::array<T, n>>`. Elements behind the first `n` are ignored. -/
def getStdArray (n : Nat) (get : Json F → Option α) : Json F → Option (Vector α n)
  | array elements => getElements get (array elements) n
  | _ => none

/-- `get<std::vector<T>>`. -/
def getStdVector (get : Json F → Option α) : Json F → Option (List α)
  | array elements => elements.mapM get
  | _ => none

/-! ## What is accepted -/

theorem index_object {key : String} {members : List (String × Json F)} {j : Json F}
    (h : members.lookup key = some j) : (object members).index key = .ok j := by
  rw [index, h]

theorem index_missing {key : String} {members : List (String × Json F)}
    (h : members.lookup key = none) :
    (object members).index key = .error (.aborted .keyExists) := by
  rw [index, h]

theorem index_eq_ok_iff {key : String} {j x : Json F} :
    j.index key = .ok x ↔ ∃ members, j = object members ∧ members.lookup key = some x := by
  constructor
  · intro h
    cases j with
    | object members =>
      cases hx : members.lookup key with
      | some y =>
        rw [index_object hx] at h
        cases h
        exact ⟨members, rfl, hx⟩
      | none =>
        rw [index_missing hx] at h
        cases h
    | _ => cases h
  · rintro ⟨members, rfl, hx⟩
    exact index_object hx

/-- The assertion of `operator[]` fails on an object without the key. -/
theorem index_eq_aborted_iff {key : String} {j : Json F} {a : Assertion} :
    j.index key = .error (.aborted a) ↔
      a = .keyExists ∧ ∃ members, j = object members ∧ members.lookup key = none := by
  constructor
  · intro h
    cases j with
    | object members =>
      cases hx : members.lookup key with
      | some y =>
        rw [index_object hx] at h
        cases h
      | none =>
        rw [index_missing hx] at h
        cases h
        exact ⟨rfl, members, rfl, hx⟩
    | _ => cases h
  · rintro ⟨rfl, members, rfl, hx⟩
    exact index_missing hx

theorem getElements_eq_some_iff {get : Json F → Option α} {j : Json F} {n : Nat}
    {v : Vector α n} : getElements get j n = some v ↔
      ∀ i (hi : i < n), ∃ x, j.at? i = some x ∧ get x = some v[i] := by
  induction n with
  | zero =>
    constructor
    · intro _ i hi
      exact absurd hi (Nat.not_lt_zero i)
    · intro _
      exact congrArg some Vector.eq_empty.symm
  | succ n ih =>
    simp only [getElements, Option.bind_eq_bind, Option.bind_eq_some_iff]
    constructor
    · rintro ⟨u, hu, x, hx, a, ha, hv⟩ i hi
      cases hv
      rcases Nat.lt_succ_iff_lt_or_eq.mp hi with hlt | rfl
      · obtain ⟨y, hy, hget⟩ := ih.mp hu i hlt
        exact ⟨y, hy, by rw [hget, Vector.getElem_push_lt hlt]⟩
      · exact ⟨x, hx, by rw [ha, Vector.getElem_push_eq]⟩
    · intro h
      obtain ⟨x, hx, hget⟩ := h n (Nat.lt_succ_self n)
      refine ⟨v.pop, ih.mpr fun i hi => ?_, x, hx, _, hget, ?_⟩
      · obtain ⟨y, hy, hy'⟩ := h i (Nat.lt_succ_of_lt hi)
        exact ⟨y, hy, by rw [hy', Vector.getElem_pop]⟩
      · have hpush : v.pop.push v[n] = v := by
          apply Vector.ext
          intro i hi
          rcases Nat.lt_succ_iff_lt_or_eq.mp hi with hlt | rfl
          · rw [Vector.getElem_push_lt hlt, Vector.getElem_pop]
          · simp
        exact congrArg some hpush

/-- An array converts when it is long enough and its first elements do. -/
theorem getStdArray_eq_some_iff {get : Json F → Option α} {j : Json F} {n : Nat}
    {v : Vector α n} : j.getStdArray n get = some v ↔ ∃ elements, j = array elements ∧
      ∀ i (hi : i < n), ∃ x, elements[i]? = some x ∧ get x = some v[i] := by
  cases j with
  | array elements =>
    rw [getStdArray, getElements_eq_some_iff]
    constructor
    · exact fun h => ⟨elements, rfl, h⟩
    · rintro ⟨_, he, h⟩
      cases he
      exact h
  | _ => simp [getStdArray]

end Json

end MicroRiscv
