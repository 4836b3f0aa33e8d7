import Mathlib.Algebra.Order.Field.Rat
import Mathlib.Data.List.TakeWhile

/-!
# JSON

JSON values, their text and its reader. A string is a sequence of Unicode scalar values: an escape
of half a surrogate pair is read as U+FFFD. A writer chooses how it escapes characters.
-/

/-- A number as it is written: sign, digits before and after the point, exponent. -/
structure JsonNumber where
  neg : Bool
  int : ℕ
  frac : List (Fin 10)
  exp : Option ℤ
  deriving DecidableEq

inductive Json where
  | null
  | bool (b : Bool)
  | num (n : JsonNumber)
  | str (s : String)
  | arr (values : List Json)
  | obj (members : List (String × Json))

namespace JsonNumber

/-- The number that is denoted. -/
def value (n : JsonNumber) : ℚ :=
  (if n.neg then -1 else 1) * (n.int + n.frac.foldr (fun d x => ((d.val : ℚ) + x) / 10) 0) *
    10 ^ n.exp.getD 0

/-- The integer without point and exponent. -/
def ofInt (z : ℤ) : JsonNumber := ⟨decide (z < 0), z.natAbs, [], none⟩

/-- The integer that is written, if there is no point and no exponent. -/
def int? (n : JsonNumber) : Option ℤ :=
  if n.frac = [] ∧ n.exp = none then some (if n.neg then -n.int else n.int) else none

theorem int?_ofInt (z : ℤ) : (ofInt z).int? = some z := by
  unfold int? ofInt
  rw [if_pos ⟨rfl, rfl⟩, Option.some_inj]
  simp only [decide_eq_true_eq]
  split_ifs <;> omega

theorem value_of_int? {n : JsonNumber} {z : ℤ} (h : n.int? = some z) : n.value = z := by
  obtain ⟨neg, int, frac, exp⟩ := n
  unfold int? at h
  simp only at h
  split at h
  · next hplain =>
    obtain ⟨rfl, rfl⟩ := hplain
    obtain rfl := Option.some.inj h
    cases neg <;> simp [value]
  · cases h

theorem value_ofInt (z : ℤ) : (ofInt z).value = z := value_of_int? (int?_ofInt z)

end JsonNumber

namespace Json

/-- The value of the last member named `key`. -/
def get? (key : String) : Json → Option Json
  | .obj members => members.reverse.lookup key
  | _ => none

/-! ## Text -/

def digitChar (d : Fin 10) : Char := Nat.digitChar d

def signText (neg : Bool) : List Char := if neg then ['-'] else []

def fracText : List (Fin 10) → List Char
  | [] => []
  | ds => '.' :: ds.map digitChar

def expText : Option ℤ → List Char
  | none => []
  | some e => 'e' :: (signText (decide (e < 0)) ++ Nat.toDigits 10 e.natAbs)

def numberText (n : JsonNumber) : List Char :=
  signText n.neg ++ (Nat.toDigits 10 n.int ++ (fracText n.frac ++ expText n.exp))

def hexVal (c : Char) : Option ℕ :=
  if '0' ≤ c ∧ c ≤ '9' then some (c.toNat - 48)
  else if 'a' ≤ c ∧ c ≤ 'f' then some (c.toNat - 87)
  else if 'A' ≤ c ∧ c ≤ 'F' then some (c.toNat - 55)
  else none

/-- The code unit with the hexadecimal digits `a b c d`. -/
def hexUnit (a b c d : Char) : Option ℕ := do
  let a ← hexVal a
  let b ← hexVal b
  let c ← hexVal c
  let d ← hexVal d
  some (((a * 16 + b) * 16 + c) * 16 + d)

/-- The character after a backslash that is not a `u`. -/
def shortEscape : Char → Option Char
  | '"' => some '"'
  | '\\' => some '\\'
  | '/' => some '/'
  | 'b' => some '\x08'
  | 'f' => some '\x0c'
  | 'n' => some '\n'
  | 'r' => some '\r'
  | 't' => some '\t'
  | _ => none

/-- The second half of a surrogate pair. -/
def lowSurrogate : List Char → Option (ℕ × List Char)
  | '\\' :: 'u' :: a :: b :: c :: d :: rest =>
    (hexUnit a b c d).bind fun low =>
      if 0xDC00 ≤ low ∧ low < 0xE000 then some (low, rest) else none
  | _ => none

/-- The character of the code unit `unit`, with the other half of its pair from `rest`. -/
def unitChar (unit : ℕ) (rest : List Char) : Char × List Char :=
  if 0xD800 ≤ unit ∧ unit < 0xDC00 then
    match lowSurrogate rest with
    | some (low, rest) => (Char.ofNat (0x10000 + (unit - 0xD800) * 0x400 + (low - 0xDC00)), rest)
    | none => (Char.ofNat 0xFFFD, rest)
  else if 0xDC00 ≤ unit ∧ unit < 0xE000 then (Char.ofNat 0xFFFD, rest)
  else (Char.ofNat unit, rest)

/-- One character of a string. -/
def readChar : List Char → Option (Char × List Char)
  | '\\' :: 'u' :: a :: b :: c :: d :: rest =>
    (hexUnit a b c d).map fun unit => unitChar unit rest
  | '\\' :: c :: rest => (shortEscape c).map fun c => (c, rest)
  | c :: rest => if c = '"' ∨ c = '\\' ∨ c.toNat < 0x20 then none else some (c, rest)
  | [] => none

/-- How a writer writes the characters of a string. -/
structure Escaping where
  escape : Char → List Char
  readChar_escape : ∀ c rest, readChar (escape c ++ rest) = some (c, rest)

variable (esc : Escaping)

def stringText (s : String) : List Char := '"' :: (s.toList.flatMap esc.escape ++ ['"'])

mutual

def render : Json → List Char
  | .null => ['n', 'u', 'l', 'l']
  | .bool true => ['t', 'r', 'u', 'e']
  | .bool false => ['f', 'a', 'l', 's', 'e']
  | .num n => numberText n
  | .str s => stringText esc s
  | .arr [] => ['[', ']']
  | .arr (v :: values) => '[' :: (render v ++ renderValues values)
  | .obj [] => ['{', '}']
  | .obj (m :: members) => '{' :: (renderMember m ++ renderMembers members)

/-- The values after the first one, and the end of the array. -/
def renderValues : List Json → List Char
  | [] => [']']
  | v :: values => ',' :: (render v ++ renderValues values)

def renderMember : String × Json → List Char
  | (key, v) => stringText esc key ++ ':' :: render v

/-- The members after the first one, and the end of the object. -/
def renderMembers : List (String × Json) → List Char
  | [] => ['}']
  | m :: members => ',' :: (renderMember m ++ renderMembers members)

end

/-! ## Reader -/

def isSpace (c : Char) : Bool := c = ' ' || c = '\n' || c = '\r' || c = '\t'

def skipSpace (text : List Char) : List Char := text.dropWhile isSpace

def readSign : List Char → Bool × List Char
  | '-' :: rest => (true, rest)
  | text => (false, text)

/-- Digits without a zero before other digits. -/
def readInt : List Char → Option (ℕ × List Char)
  | '0' :: rest => some (0, rest)
  | text =>
    if text.takeWhile Char.isDigit = [] then none
    else some (Nat.ofDigitChars 10 (text.takeWhile Char.isDigit) 0, text.dropWhile Char.isDigit)

def readFrac : List Char → Option (List (Fin 10) × List Char)
  | '.' :: rest =>
    if rest.takeWhile Char.isDigit = [] then none
    else some ((rest.takeWhile Char.isDigit).map fun c => Fin.ofNat 10 (c.toNat - 48),
      rest.dropWhile Char.isDigit)
  | text => some ([], text)

def readExpSign : List Char → Bool × List Char
  | '+' :: rest => (false, rest)
  | text => readSign text

def readExp : List Char → Option (Option ℤ × List Char)
  | c :: rest =>
    if c = 'e' ∨ c = 'E' then
      let (neg, rest) := readExpSign rest
      let digits := rest.takeWhile Char.isDigit
      if digits = [] then none
      else
        let e : ℤ := Nat.ofDigitChars 10 digits 0
        some (some (if neg then -e else e), rest.dropWhile Char.isDigit)
    else some (none, c :: rest)
  | [] => some (none, [])

def readNumber (text : List Char) : Option (JsonNumber × List Char) :=
  let (neg, text) := readSign text
  (readInt text).bind fun (int, text) =>
    (readFrac text).bind fun (frac, text) =>
      (readExp text).map fun (exp, text) => (⟨neg, int, frac, exp⟩, text)

/-- The characters up to the closing quote. -/
def readChars : ℕ → List Char → Option (List Char × List Char)
  | 0, _ => none
  | _ + 1, '"' :: rest => some ([], rest)
  | n + 1, text =>
    (readChar text).bind fun (c, rest) =>
      (readChars n rest).map fun (cs, rest) => (c :: cs, rest)

/-- A string after its opening quote. -/
def readString (text : List Char) : Option (String × List Char) :=
  (readChars text.length text).map fun (cs, rest) => (String.ofList cs, rest)

mutual

/-- A value. Each call reads a character before the next one, so the length of the text is enough
for the bound on the calls. -/
def readValue : ℕ → List Char → Option (Json × List Char)
  | 0, _ => none
  | n + 1, text =>
    match skipSpace text with
    | '{' :: rest =>
      match skipSpace rest with
      | '}' :: rest => some (.obj [], rest)
      | rest =>
        (readMember n rest).bind fun (m, rest) =>
          (readMembers n rest).map fun (members, rest) => (.obj (m :: members), rest)
    | '[' :: rest =>
      match skipSpace rest with
      | ']' :: rest => some (.arr [], rest)
      | rest =>
        (readValue n rest).bind fun (v, rest) =>
          (readValues n rest).map fun (values, rest) => (.arr (v :: values), rest)
    | '"' :: rest => (readString rest).map fun (s, rest) => (.str s, rest)
    | 'n' :: 'u' :: 'l' :: 'l' :: rest => some (.null, rest)
    | 't' :: 'r' :: 'u' :: 'e' :: rest => some (.bool true, rest)
    | 'f' :: 'a' :: 'l' :: 's' :: 'e' :: rest => some (.bool false, rest)
    | rest => (readNumber rest).map fun (number, rest) => (.num number, rest)

def readValues : ℕ → List Char → Option (List Json × List Char)
  | 0, _ => none
  | n + 1, text =>
    match skipSpace text with
    | ']' :: rest => some ([], rest)
    | ',' :: rest =>
      (readValue n rest).bind fun (v, rest) =>
        (readValues n rest).map fun (values, rest) => (v :: values, rest)
    | _ => none

def readMember : ℕ → List Char → Option ((String × Json) × List Char)
  | 0, _ => none
  | n + 1, text =>
    match skipSpace text with
    | '"' :: rest =>
      (readString rest).bind fun (key, rest) =>
        match skipSpace rest with
        | ':' :: rest => (readValue n rest).map fun (v, rest) => ((key, v), rest)
        | _ => none
    | _ => none

def readMembers : ℕ → List Char → Option (List (String × Json) × List Char)
  | 0, _ => none
  | n + 1, text =>
    match skipSpace text with
    | '}' :: rest => some ([], rest)
    | ',' :: rest =>
      (readMember n rest).bind fun (m, rest) =>
        (readMembers n rest).map fun (members, rest) => (m :: members, rest)
    | _ => none

end

/-- The value of a text that holds one. -/
def loads (text : List Char) : Option Json :=
  (readValue text.length text).bind fun (v, rest) => if skipSpace rest = [] then some v else none

end Json
