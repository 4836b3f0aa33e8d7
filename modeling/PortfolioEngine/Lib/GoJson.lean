import Mathlib.Data.List.Induction
import PortfolioEngine.Lib.Json
import PortfolioEngine.Lib.Members

/-!
# Decoding JSON into variables

How `encoding/json` decodes a JSON value into variables that hold a value already. `null` and a
value of the wrong type leave a variable as it is, and decoding goes on with the other fields; the
error that is returned at the end plays no part here. The members of an object go to the field of
their name or else to the first field whose name differs only in case, in the order of the members.

`unmarshalStruct_field`: a field holds what the members taken for it leave in it, one after the
other.
-/

namespace GoJson

open Json

variable {α β : Type*}

/-! ## Values -/

/-- Decodes into `x` a value that has the type of `x` if `typed` reads it. -/
def unmarshal (typed : Json → Option α) (x : α) (v : Json) : α := (typed v).getD x

def int64? : Json → Option ℤ
  | .num n => n.int?.filter fun z => -2 ^ 63 ≤ z ∧ z < 2 ^ 63
  | _ => none

def string? : Json → Option String
  | .str s => some s
  | _ => none

def bool? : Json → Option Bool
  | .bool b => some b
  | _ => none

/-- A `[][]json.RawMessage`, or `none` if the decoder returns an error. -/
def rawRows : Json → Option (List (List Json))
  | .null => some []
  | .arr rows => rows.mapM fun
    | .null => some []
    | .arr row => some row
    | _ => none
  | _ => none

/-- The last value in `vs` that `typed` reads is `a`. -/
def LastTyped (typed : Json → Option α) (vs : List Json) (a : α) : Prop :=
  (vs.filterMap typed).getLast? = some a

/-- What a variable that holds `zero` holds after values of its type in `vs`, if there are any. -/
def Leaves (typed : Json → Option α) (zero : α) (vs : List Json) (a : α) : Prop :=
  LastTyped typed vs a ∨ a = zero ∧ ∀ v ∈ vs, typed v = none

theorem foldl_unmarshal (typed : Json → Option α) (zero : α) (vs : List Json) :
    vs.foldl (unmarshal typed) zero = (vs.filterMap typed).getLast?.getD zero := by
  induction vs using List.reverseRecOn with
  | nil => rfl
  | append_singleton vs v ih =>
    rw [List.foldl_append, List.foldl_cons, List.foldl_nil, ih, List.filterMap_append,
      List.getLast?_append]
    unfold unmarshal
    cases hv : typed v <;> simp [hv]

theorem leaves_iff {typed : Json → Option α} {zero a : α} {vs : List Json} :
    Leaves typed zero vs a ↔ vs.foldl (unmarshal typed) zero = a := by
  rw [foldl_unmarshal]
  unfold Leaves LastTyped
  cases hlast : (vs.filterMap typed).getLast? with
  | none =>
    rw [List.getLast?_eq_none_iff, List.filterMap_eq_nil_iff] at hlast
    simp only [reduceCtorEq, false_or, Option.getD_none]
    exact ⟨fun h => h.1.symm, fun h => ⟨h.symm, hlast⟩⟩
  | some b =>
    have hne : ¬ ∀ v ∈ vs, typed v = none := by
      rw [← List.filterMap_eq_nil_iff, ← List.getLast?_eq_none_iff, hlast]
      exact Option.some_ne_none b
    simp only [Option.some.injEq, Option.getD_some, hne, and_false, or_false]

/-! ## Objects -/

/-- `foldName` on one character, for what can match an ASCII letter: U+017F folds to S and
U+212A to K. -/
def foldRune (c : Char) : Char :=
  if c = Char.ofNat 0x17F then 'S' else if c = Char.ofNat 0x212A then 'K' else c.toUpper

/-- The field that a member named `key` is decoded into. -/
def fieldFor (fields : List String) (key : String) : Option String :=
  if key ∈ fields then some key
  else fields.find? fun f => f.toList.map foldRune = key.toList.map foldRune

/-- Decodes a value into a struct with `fields`, where `set f x v` decodes `v` into the field
`f` of `x`. -/
def unmarshalStruct (fields : List String) (set : String → α → Json → α) (x : α) : Json → α
  | .obj members =>
    members.foldl (fun x m => ((fieldFor fields m.1).map fun f => set f x m.2).getD x) x
  | _ => x

/-- The values of the members that are decoded into the field `f`. -/
def taken (fields : List String) (f : String) : Json → List Json
  | .obj members =>
    members.filterMap fun m => if fieldFor fields m.1 = some f then some m.2 else none
  | _ => []

theorem unmarshalStruct_field {fields : List String} {set : String → α → Json → α} {f : String}
    (get : α → β) {step : β → Json → β}
    (hset : ∀ f' x v, get (set f' x v) = if f' = f then step (get x) v else get x) (x : α)
    (v : Json) :
    get (unmarshalStruct fields set x v) = (taken fields f v).foldl step (get x) := by
  cases v with
  | obj members =>
    show get (members.foldl _ x) = (members.filterMap _).foldl step (get x)
    induction members generalizing x with
    | nil => rfl
    | cons m members ih =>
      rw [List.foldl_cons, List.filterMap_cons, ih]
      cases hfield : fieldFor fields m.1 with
      | none => simp
      | some f' =>
        rw [Option.map_some, Option.getD_some, hset]
        by_cases hf : f' = f
        · simp [hf]
        · simp [hf]
  | _ => rfl

/-! ## Values of any type -/

/-- A variable of type `interface{}` after decoding into it. -/
inductive Interface (K : Type*) where
  | nil
  | bool (b : Bool)
  | float64 (x : K)
  | string (s : String)
  | slice (values : List (Interface K))
  | map (members : List (String × Interface K))

variable {K : Type*}

mutual

/-- Decodes a value into an `interface{}`, where `parse` reads a number unless it is out of range,
which is an error. -/
def decode (parse : JsonNumber → Option K) : Json → Option (Interface K)
  | .null => some .nil
  | .bool b => some (.bool b)
  | .num n => (parse n).map .float64
  | .str s => some (.string s)
  | .arr values => (decodeValues parse values).map .slice
  | .obj members => (decodeMembers parse members).map .map

def decodeValues (parse : JsonNumber → Option K) : List Json → Option (List (Interface K))
  | [] => some []
  | v :: values =>
    (decode parse v).bind fun a => (decodeValues parse values).map fun as => a :: as

def decodeMembers (parse : JsonNumber → Option K) :
    List (String × Json) → Option (List (String × Interface K))
  | [] => some []
  | (key, v) :: members =>
    (decode parse v).bind fun a => (decodeMembers parse members).map fun as => (key, a) :: as

end

/-- `json.Unmarshal` into a `map[string]interface{}`, or `none` if it returns an error. -/
def unmarshalMap (parse : JsonNumber → Option K) (text : List Char) :
    Option (List (String × Interface K)) :=
  (loads text).bind fun
    | .null => some []
    | .obj members => decodeMembers parse members
    | _ => none

/-- `m[key]`: of members with one name the last one counts. -/
def index {β : Type*} (m : List (String × β)) (key : String) : Option β := m.reverse.lookup key

theorem decodeMembers_eq (parse : JsonNumber → Option K) (members : List (String × Json)) :
    decodeMembers parse members =
      Members.collect (members.map fun m => (m.1, decode parse m.2)) := by
  induction members with
  | nil => rfl
  | cons m members ih =>
    rw [decodeMembers, ih]
    rfl

/-! ## Writing -/

def hexDigit (n : ℕ) : Char := Nat.digitChar n

/-- How `json.Marshal` writes a character of a string. -/
def escape (c : Char) : List Char :=
  if c = '"' then ['\\', '"']
  else if c = '\\' then ['\\', '\\']
  else if c = '\x08' then ['\\', 'b']
  else if c = '\x0c' then ['\\', 'f']
  else if c = '\n' then ['\\', 'n']
  else if c = '\r' then ['\\', 'r']
  else if c = '\t' then ['\\', 't']
  else if c.toNat < 0x20 ∨ c ∈ ['<', '>', '&', Char.ofNat 0x2028, Char.ofNat 0x2029] then
    ['\\', 'u', hexDigit (c.toNat / 4096), hexDigit (c.toNat / 256 % 16),
      hexDigit (c.toNat / 16 % 16), hexDigit (c.toNat % 16)]
  else [c]

theorem hexVal_hexDigit {n : ℕ} (h : n < 16) : hexVal (hexDigit n) = some n := by
  have hall : ∀ m < 16, hexVal (hexDigit m) = some m := by decide
  exact hall n h

/-- A character below the surrogates is read back from its code. -/
theorem readChar_unicode {c : Char} (hc : c.toNat < 0xD800) (rest : List Char) :
    readChar (['\\', 'u', hexDigit (c.toNat / 4096), hexDigit (c.toNat / 256 % 16),
      hexDigit (c.toNat / 16 % 16), hexDigit (c.toNat % 16)] ++ rest) = some (c, rest) := by
  have hunit : hexUnit (hexDigit (c.toNat / 4096)) (hexDigit (c.toNat / 256 % 16))
      (hexDigit (c.toNat / 16 % 16)) (hexDigit (c.toNat % 16)) = some c.toNat := by
    unfold hexUnit
    rw [hexVal_hexDigit (by omega), hexVal_hexDigit (by omega), hexVal_hexDigit (by omega),
      hexVal_hexDigit (by omega)]
    simp only [Option.bind_eq_bind, Option.bind_some, Option.some.injEq]
    omega
  simp only [List.cons_append, List.nil_append, readChar, hunit, Option.map_some, unitChar]
  rw [if_neg (by omega), if_neg (by omega), Char.ofNat_toNat]

theorem readChar_escape (c : Char) (rest : List Char) :
    readChar (escape c ++ rest) = some (c, rest) := by
  unfold escape
  split_ifs with hquote hback hb hf hn hr ht hcode
  · rw [hquote]; rfl
  · rw [hback]; rfl
  · rw [hb]; rfl
  · rw [hf]; rfl
  · rw [hn]; rfl
  · rw [hr]; rfl
  · rw [ht]; rfl
  · refine readChar_unicode ?_ rest
    rcases hcode with hcode | hcode
    · omega
    · simp only [List.mem_cons, List.not_mem_nil, or_false] at hcode
      rcases hcode with rfl | rfl | rfl | rfl | rfl <;> decide
  · rw [not_or] at hcode
    unfold readChar
    rw [List.cons_append, List.nil_append]
    split
    · next h => exact absurd (List.cons.inj h).1 hback
    · next h => exact absurd (List.cons.inj h).1 hback
    · next h =>
      obtain ⟨rfl, rfl⟩ := List.cons.inj h
      rw [if_neg]
      rintro (h | h | h)
      · exact hquote h
      · exact hback h
      · exact hcode.1 h
    · next h => cases h

def escaping : Escaping := ⟨escape, readChar_escape⟩

end GoJson
