import PortfolioEngine.Lib.ExactFloat
import PortfolioEngine.Lib.GoJson
import PortfolioEngine.Lib.JsonText

/-!
# Writing JSON in Python

`json.dumps` with `sort_keys=True` and the default separators: only ASCII characters are written,
and a NaN or an infinity is written as a name that is not JSON.

`loads_dumps`: a reader gets back the value with the members of every object in the order of their
names, or nothing at all if there is a NaN or an infinity in it.
-/

namespace PyJson

open Json Members

/-! ## Escapes -/

/-- The escape of a code unit. -/
def unicodeEscape (unit : ℕ) : List Char :=
  ['\\', 'u', GoJson.hexDigit (unit / 4096), GoJson.hexDigit (unit / 256 % 16),
    GoJson.hexDigit (unit / 16 % 16), GoJson.hexDigit (unit % 16)]

/-- How `json.dumps` writes a character of a string. -/
def escape (c : Char) : List Char :=
  if c = '"' then ['\\', '"']
  else if c = '\\' then ['\\', '\\']
  else if c = '\n' then ['\\', 'n']
  else if c = '\r' then ['\\', 'r']
  else if c = '\t' then ['\\', 't']
  else if c = '\x0c' then ['\\', 'f']
  else if c = '\x08' then ['\\', 'b']
  else if 0x20 ≤ c.toNat ∧ c.toNat ≤ 0x7E then [c]
  else if c.toNat < 0x10000 then unicodeEscape c.toNat
  else
    unicodeEscape (0xD800 + (c.toNat - 0x10000) / 0x400) ++
      unicodeEscape (0xDC00 + (c.toNat - 0x10000) % 0x400)

theorem hexUnit_unicodeEscape {unit : ℕ} (h : unit < 0x10000) :
    hexUnit (GoJson.hexDigit (unit / 4096)) (GoJson.hexDigit (unit / 256 % 16))
      (GoJson.hexDigit (unit / 16 % 16)) (GoJson.hexDigit (unit % 16)) = some unit := by
  unfold hexUnit
  rw [GoJson.hexVal_hexDigit (by omega), GoJson.hexVal_hexDigit (by omega),
    GoJson.hexVal_hexDigit (by omega), GoJson.hexVal_hexDigit (by omega)]
  simp only [Option.bind_eq_bind, Option.bind_some, Option.some.injEq]
  omega

theorem readChar_unicodeEscape {unit : ℕ} (h : unit < 0x10000) (rest : List Char) :
    readChar (unicodeEscape unit ++ rest) = some (unitChar unit rest) := by
  unfold unicodeEscape
  simp only [List.cons_append, List.nil_append, readChar, hexUnit_unicodeEscape h, Option.map_some]

theorem lowSurrogate_unicodeEscape {low : ℕ} (h : 0xDC00 ≤ low) (h' : low < 0xE000)
    (rest : List Char) : lowSurrogate (unicodeEscape low ++ rest) = some (low, rest) := by
  have hlow : hexUnit _ _ _ _ = some low := hexUnit_unicodeEscape (by omega)
  unfold unicodeEscape
  simp only [List.cons_append, List.nil_append, lowSurrogate, hlow, Option.bind_some]
  rw [if_pos ⟨h, h'⟩]

theorem readChar_escape (c : Char) (rest : List Char) :
    readChar (escape c ++ rest) = some (c, rest) := by
  have hvalid : c.toNat < 0xD800 ∨ 0xDFFF < c.toNat ∧ c.toNat < 0x110000 := c.valid
  unfold escape
  split_ifs with hquote hback hn hr ht hf hb hplain hunit
  · rw [hquote]; rfl
  · rw [hback]; rfl
  · rw [hn]; rfl
  · rw [hr]; rfl
  · rw [ht]; rfl
  · rw [hf]; rfl
  · rw [hb]; rfl
  · rw [List.cons_append, List.nil_append]
    unfold readChar
    split
    · next h => exact absurd (List.cons.inj h).1 hback
    · next h => exact absurd (List.cons.inj h).1 hback
    · next h =>
      obtain ⟨rfl, rfl⟩ := List.cons.inj h
      rw [if_neg]
      rintro (h | h | h)
      · exact hquote h
      · exact hback h
      · omega
    · next h => cases h
  · rw [readChar_unicodeEscape hunit]
    unfold unitChar
    rw [if_neg (by omega), if_neg (by omega), Char.ofNat_toNat]
  · have hcode : 0x10000 + (0xD800 + (c.toNat - 0x10000) / 0x400 - 0xD800) * 0x400 +
        (0xDC00 + (c.toNat - 0x10000) % 0x400 - 0xDC00) = c.toNat := by omega
    rw [List.append_assoc, readChar_unicodeEscape (by omega)]
    unfold unitChar
    rw [if_pos (by omega), lowSurrogate_unicodeEscape (by omega) (by omega)]
    simp only
    rw [hcode, Char.ofNat_toNat]

def escaping : Escaping := ⟨escape, readChar_escape⟩

/-! ## Values -/

/-- The Python values that are written here. -/
inductive Value (K : Type*) where
  | float (x : Flt K)
  | str (s : String)
  | dict (entries : List (String × Value K))

variable {K α β : Type*}

/-- A float, where `repr` writes the finite ones. -/
def floatText (repr : K → List Char) : Flt K → List Char
  | .fin x => repr x
  | .inf => "Infinity".toList
  | .negInf => "-Infinity".toList
  | .nan => "NaN".toList

def memberText (m : String × List Char) : List Char :=
  stringText escaping m.1 ++ ':' :: ' ' :: m.2

/-- The members after the first one, and the end of the object. -/
def membersText : List (String × List Char) → List Char
  | [] => ['}']
  | m :: ms => ',' :: ' ' :: (memberText m ++ membersText ms)

def objectText : List (String × List Char) → List Char
  | [] => ['{', '}']
  | m :: ms => '{' :: (memberText m ++ membersText ms)

mutual

/-- `json.dumps(v, sort_keys=True)`. -/
def dumps (repr : K → List Char) : Value K → List Char
  | .float x => floatText repr x
  | .str s => stringText escaping s
  | .dict entries => objectText (sortKeys (dumpsEntries repr entries))

def dumpsEntries (repr : K → List Char) : List (String × Value K) → List (String × List Char)
  | [] => []
  | (key, v) :: entries => (key, dumps repr v) :: dumpsEntries repr entries

end

mutual

/-- The JSON value of a Python value, if it has one, where `number` gives that of a finite float. -/
def toJson (number : K → JsonNumber) : Value K → Option Json
  | .float x => x.toFin?.map fun x => .num (number x)
  | .str s => some (.str s)
  | .dict entries => (collect (sortKeys (toJsonEntries number entries))).map .obj

def toJsonEntries (number : K → JsonNumber) : List (String × Value K) → List (String × Option Json)
  | [] => []
  | (key, v) :: entries => (key, toJson number v) :: toJsonEntries number entries

end

/-! ## Reading a text that goes on -/

/-- At the start of a longer text, `text` is read as the value `v`, or not at all. -/
def Reads (text : List Char) (v : Option Json) : Prop :=
  ∀ n rest, text.length ≤ n → Follows rest →
    readValue n (text ++ rest) = v.map fun v => (v, rest)

theorem readValue_space (n : ℕ) (text : List Char) :
    readValue n (' ' :: text) = readValue n text := by
  cases n with
  | zero => rfl
  | succ n =>
    have hskip : skipSpace (' ' :: text) = skipSpace text := rfl
    rw [readValue, readValue, hskip]

theorem readMember_space (n : ℕ) (text : List Char) :
    readMember n (' ' :: text) = readMember n text := by
  cases n with
  | zero => rfl
  | succ n =>
    have hskip : skipSpace (' ' :: text) = skipSpace text := rfl
    rw [readMember, readMember, hskip]

theorem memberText_append (m : String × List Char) (rest : List Char) :
    memberText m ++ rest =
      '"' :: (m.1.toList.flatMap escape ++ '"' :: ':' :: ' ' :: (m.2 ++ rest)) := by
  unfold memberText
  rw [List.append_assoc, stringText_append]
  rfl

theorem readMember_memberText (key : String) {text : List Char} {v : Option Json}
    (h : Reads text v) {n : ℕ} {rest : List Char} (hn : text.length < n) (hrest : Follows rest) :
    readMember n (memberText (key, text) ++ rest) = v.map fun v => ((key, v), rest) := by
  obtain ⟨n, rfl⟩ := Nat.exists_eq_succ_of_ne_zero (Nat.ne_of_gt (Nat.zero_lt_of_lt hn))
  have hname : readMember (n + 1) ('"' :: (key.toList.flatMap escape ++ '"' :: ':' :: _)) = _ :=
    readMember_name escaping n key (' ' :: (text ++ rest))
  rw [memberText_append, hname, readValue_space, h n rest (Nat.le_of_lt_succ hn) hrest,
    Option.map_map]
  rfl

theorem follows_membersText (ms : List (String × List Char)) (rest : List Char) :
    Follows (membersText ms ++ rest) := by
  cases ms with
  | nil => exact .inr (.inr rfl)
  | cons m ms => exact .inl rfl

/-- The texts of the members of an object, from their values. -/
def texts (es : List (String × List Char × Option Json)) : List (String × List Char) :=
  es.map fun e => (e.1, e.2.1)

def values (es : List (String × List Char × Option Json)) : List (String × Option Json) :=
  es.map fun e => (e.1, e.2.2)

theorem length_memberText (m : String × List Char) : m.2.length < (memberText m).length := by
  unfold memberText
  simp only [List.length_append, List.length_cons]
  omega

theorem readMembers_membersText {es : List (String × List Char × Option Json)}
    (h : ∀ e ∈ es, Reads e.2.1 e.2.2) {n : ℕ} {rest : List Char}
    (hn : (membersText (texts es)).length ≤ n) :
    readMembers n (membersText (texts es) ++ rest) =
      (collect (values es)).map fun members => (members, rest) := by
  induction es generalizing n with
  | nil =>
    obtain ⟨n, rfl⟩ := Nat.exists_eq_succ_of_ne_zero (Nat.ne_of_gt hn)
    rfl
  | cons e es ih =>
    obtain ⟨key, text, v⟩ := e
    have hlen : text.length < (memberText (key, text)).length :=
      length_memberText (key, text)
    have hv : Reads text v := h _ List.mem_cons_self
    have htext : membersText (texts ((key, text, v) :: es)) =
        ',' :: ' ' :: (memberText (key, text) ++ membersText (texts es)) := rfl
    rw [htext, List.length_cons, List.length_cons, List.length_append] at hn
    obtain ⟨n, rfl⟩ : ∃ m, n = m + 1 := Nat.exists_eq_succ_of_ne_zero (by omega)
    have hmember := readMember_memberText key hv (n := n) (by omega)
      (follows_membersText (texts es) rest)
    rw [htext, List.cons_append, List.cons_append, List.append_assoc, readMembers_comma,
      readMember_space, hmember]
    cases v with
    | none => rfl
    | some v =>
      have htail := ih (fun e he => h e (List.mem_cons_of_mem _ he)) (n := n) (by omega)
      simp only [Option.map_some, Option.bind_some]
      rw [htail]
      show _ = ((collect (values es)).map fun as => (key, v) :: as).map _
      rw [Option.map_map, Option.map_map]
      rfl

theorem reads_objectText {es : List (String × List Char × Option Json)}
    (h : ∀ e ∈ es, Reads e.2.1 e.2.2) :
    Reads (objectText (texts es)) ((collect (values es)).map .obj) := by
  intro n rest hn hrest
  cases es with
  | nil =>
    obtain ⟨n, rfl⟩ := Nat.exists_eq_succ_of_ne_zero (Nat.ne_of_gt (Nat.zero_lt_of_lt hn))
    rfl
  | cons e es =>
    obtain ⟨key, text, v⟩ := e
    have hlen : text.length < (memberText (key, text)).length :=
      length_memberText (key, text)
    have hv : Reads text v := h _ List.mem_cons_self
    have htext : objectText (texts ((key, text, v) :: es)) =
        '{' :: (memberText (key, text) ++ membersText (texts es)) := rfl
    rw [htext, List.length_cons, List.length_append] at hn
    obtain ⟨n, rfl⟩ : ∃ m, n = m + 1 := Nat.exists_eq_succ_of_ne_zero (by omega)
    have hmember := readMember_memberText key hv (n := n) (by omega)
      (follows_membersText (texts es) rest)
    rw [htext, List.cons_append, List.append_assoc, memberText_append, readValue_obj,
      ← memberText_append (key, text), hmember]
    cases v with
    | none => rfl
    | some v =>
      have htail : readMembers n (membersText (texts es) ++ rest) = _ :=
        readMembers_membersText (fun e he => h e (List.mem_cons_of_mem _ he)) (by omega)
      simp only [Option.map_some, Option.bind_some]
      rw [htail]
      show _ = (((collect (values es)).map fun as => (key, v) :: as).map _).map _
      rw [Option.map_map, Option.map_map, Option.map_map]
      rfl

/-! ## Floats -/

/-- `repr` writes every finite float as a JSON number, the one that `number` gives. -/
def WritesNumbers (repr : K → List Char) (number : K → JsonNumber) : Prop :=
  ∀ x, readNumber (repr x) = some (number x, [])

/-- A text that starts with neither a digit nor a minus sign is not a number. -/
theorem readNumber_letter {c : Char} (hc : c.isDigit = false) (hsign : c ≠ '-')
    (rest : List Char) : readNumber (c :: rest) = none := by
  have hread : readSign (c :: rest) = (false, c :: rest) := by
    unfold readSign
    split
    · next h => exact absurd (List.cons.inj h).1 hsign
    · rfl
  have hint : readInt (c :: rest) = none := by
    unfold readInt
    split
    · next h =>
      obtain ⟨rfl, _⟩ := List.cons.inj h
      cases hc
    · rw [List.takeWhile_cons, hc]
      rfl
  unfold readNumber
  rw [hread]
  simp only
  rw [hint]
  rfl

theorem reads_number {text : List Char} {number : JsonNumber}
    (h : readNumber text = some (number, [])) : Reads text (some (.num number)) := by
  intro n rest hn hrest
  cases text with
  | nil => cases h
  | cons c text =>
    obtain ⟨n, rfl⟩ := Nat.exists_eq_succ_of_ne_zero (Nat.ne_of_gt (Nat.zero_lt_of_lt hn))
    have hc : c.isDigit = true ∨ c = '-' := by
      by_contra hnot
      obtain ⟨hdigit, hsign⟩ := not_or.mp hnot
      rw [readNumber_letter (Bool.eq_false_iff.mpr hdigit) hsign] at h
      cases h
    rw [List.cons_append, readValue_number n hc, ← List.cons_append, readNumber_append hrest h]
    rfl

theorem reads_floatText {repr : K → List Char} {number : K → JsonNumber}
    (h : WritesNumbers repr number) (x : Flt K) :
    Reads (floatText repr x) (x.toFin?.map fun x => .num (number x)) := by
  cases x with
  | fin x => exact reads_number (h x)
  | inf =>
    intro n rest _ _
    cases n <;> rfl
  | negInf =>
    intro n rest _ _
    cases n <;> rfl
  | nan =>
    intro n rest _ _
    cases n <;> rfl

/-! ## Dictionaries -/

variable (repr : K → List Char) (number : K → JsonNumber)

/-- The entries of a dictionary, each with its text and its JSON value. -/
def both : List (String × Value K) → List (String × List Char × Option Json)
  | [] => []
  | (key, v) :: entries => (key, dumps repr v, toJson number v) :: both entries

theorem texts_both (entries : List (String × Value K)) :
    texts (both repr number entries) = dumpsEntries repr entries := by
  induction entries with
  | nil => rfl
  | cons e entries ih =>
    rw [dumpsEntries, ← ih]
    rfl

theorem values_both (entries : List (String × Value K)) :
    values (both repr number entries) = toJsonEntries number entries := by
  induction entries with
  | nil => rfl
  | cons e entries ih =>
    rw [toJsonEntries, ← ih]
    rfl

variable {repr number}

mutual

theorem reads_dumps (h : WritesNumbers repr number) :
    ∀ v : Value K, Reads (dumps repr v) (toJson number v)
  | .float x => reads_floatText h x
  | .str s => by
    intro n rest hn _
    obtain ⟨n, rfl⟩ := Nat.exists_eq_succ_of_ne_zero (Nat.ne_of_gt (Nat.zero_lt_of_lt hn))
    rw [dumps, toJson, stringText_append, readValue, skipSpace_cons (by decide)]
    simp only
    rw [readString_stringText]
    rfl
  | .dict entries => by
    have hentries := reads_both h entries
    have htexts : sortKeys (dumpsEntries repr entries) =
        texts (sortKeys (both repr number entries)) := by
      rw [← texts_both repr number]
      exact sortKeys_map Prod.fst _
    have hvalues : sortKeys (toJsonEntries number entries) =
        values (sortKeys (both repr number entries)) := by
      rw [← values_both repr number]
      exact sortKeys_map Prod.snd _
    rw [dumps, toJson, htexts, hvalues]
    exact reads_objectText fun e he => hentries e (mem_sortKeys.mp he)

theorem reads_both (h : WritesNumbers repr number) :
    ∀ entries : List (String × Value K), ∀ e ∈ both repr number entries, Reads e.2.1 e.2.2
  | [] => fun _ he => nomatch he
  | (_, v) :: entries => by
    rintro e (_ | ⟨_, he⟩)
    · exact reads_dumps h v
    · exact reads_both h entries e he

end

theorem Reads.loads {text : List Char} {v : Option Json} (h : Reads text v) :
    Json.loads text = v := by
  have hread := h _ [] le_rfl trivial
  rw [List.append_nil] at hread
  unfold Json.loads
  rw [hread]
  cases v <;> rfl

/-- The text of a value is read as its JSON value, or not at all if it has none. -/
theorem loads_dumps (h : WritesNumbers repr number) (v : Value K) :
    loads (dumps repr v) = toJson number v := (reads_dumps h v).loads

/-! ## Reading in Go -/

open GoJson

/-- What Go reads in an `interface{}` for a Python value, if it reads it. -/
def interface (number : K → JsonNumber) (parse : JsonNumber → Option K) (v : Value K) :
    Option (Interface K) :=
  (toJson number v).bind (decode parse)

theorem toJsonEntries_eq (number : K → JsonNumber) (entries : List (String × Value K)) :
    toJsonEntries number entries = entries.map fun e => (e.1, toJson number e.2) := by
  induction entries with
  | nil => rfl
  | cons e entries ih =>
    rw [toJsonEntries, ih]
    rfl

section Dictionary

variable {parse : JsonNumber → Option K} {entries : List (String × Value K)}

theorem decode_collect :
    (collect (sortKeys (toJsonEntries number entries))).bind (decodeMembers parse) =
      collect (sortKeys (entries.map fun e => (e.1, interface number parse e.2))) := by
  have hsort : sortKeys (entries.map fun e => (e.1, interface number parse e.2)) =
      (sortKeys (toJsonEntries number entries)).map fun m => (m.1, m.2.bind (decode parse)) := by
    rw [← sortKeys_map fun v : Option Json => v.bind (decode parse), toJsonEntries_eq,
      List.map_map]
    rfl
  rw [hsort, ← collect_bind]
  exact congrArg _ (funext fun members => decodeMembers_eq parse members)

theorem interface_dict : interface number parse (.dict entries) =
    (collect (sortKeys (entries.map fun e => (e.1, interface number parse e.2)))).map .map := by
  rw [← decode_collect]
  unfold interface
  rw [toJson]
  cases collect (sortKeys (toJsonEntries number entries)) <;> rfl

/-- Go reads in the text of a dictionary what it reads for the values, if it reads all of them. -/
theorem unmarshalMap_dumps (h : WritesNumbers repr number) :
    unmarshalMap parse (dumps repr (.dict entries)) =
      collect (sortKeys (entries.map fun e => (e.1, interface number parse e.2))) := by
  rw [← decode_collect]
  unfold unmarshalMap
  rw [loads_dumps h, toJson]
  cases collect (sortKeys (toJsonEntries number entries)) <;> rfl

theorem unmarshalMap_isSome (h : WritesNumbers repr number) :
    (unmarshalMap parse (dumps repr (.dict entries))).isSome ↔
      ∀ e ∈ entries, (interface number parse e.2).isSome := by
  rw [unmarshalMap_dumps h, collect_isSome]
  simp only [mem_sortKeys, List.mem_map, forall_exists_index, and_imp, forall_apply_eq_imp_iff₂]

theorem index_collect (hdistinct : Distinct entries) {m : List (String × Interface K)}
    (hm : collect (sortKeys (entries.map fun e => (e.1, interface number parse e.2))) = some m)
    (key : String) : index m key = (entries.lookup key).bind (interface number parse) := by
  unfold index
  rw [lookup_collect hm (List.mergeSort_perm _ _) (distinct_map.mpr hdistinct), lookup_map]
  cases entries.lookup key <;> rfl

end Dictionary

end PyJson
