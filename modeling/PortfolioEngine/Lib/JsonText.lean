import PortfolioEngine.Lib.Json

/-!
# Reading back JSON

`loads_render`: the reader gives back the value whose text it reads, however the writer escapes
characters, as long as each escape is read as its character.
-/

namespace Json

variable (esc : Escaping)

/-! ## Numbers -/

/-- What may follow a value: nothing, or the next separator. -/
def Follows : List Char → Prop
  | [] => True
  | c :: _ => c = ',' ∨ c = ']' ∨ c = '}'

theorem skipSpace_cons {c : Char} (h : isSpace c = false) (rest : List Char) :
    skipSpace (c :: rest) = c :: rest := by
  unfold skipSpace
  rw [List.dropWhile_cons, h]
  rfl

theorem isDigit_digitChar (d : Fin 10) : (digitChar d).isDigit = true := by
  revert d; decide

theorem ofNat_digitChar (d : Fin 10) : Fin.ofNat 10 ((digitChar d).toNat - 48) = d := by
  revert d; decide

/-- No digit comes next. -/
def NoDigit (text : List Char) : Prop := ∀ c ∈ text.head?, c.isDigit = false

theorem takeWhile_digits {ds rest : List Char} (hds : ∀ c ∈ ds, c.isDigit = true)
    (hrest : NoDigit rest) : (ds ++ rest).takeWhile Char.isDigit = ds := by
  rw [List.takeWhile_append_of_pos hds]
  cases rest with
  | nil => simp
  | cons c rest =>
    rw [List.takeWhile_cons, hrest c rfl]
    simp

theorem dropWhile_digits {ds rest : List Char} (hds : ∀ c ∈ ds, c.isDigit = true)
    (hrest : NoDigit rest) : (ds ++ rest).dropWhile Char.isDigit = rest := by
  rw [List.dropWhile_append_of_pos hds]
  cases rest with
  | nil => rfl
  | cons c rest => rw [List.dropWhile_cons, hrest c rfl]; rfl

theorem isDigit_toDigits {n : ℕ} : ∀ c ∈ Nat.toDigits 10 n, c.isDigit = true := fun _ hc =>
  Nat.isDigit_of_mem_toDigits (by decide) (by decide) hc

theorem eq_zero_of_toDigits {n : ℕ} {ds : List Char} (h : Nat.toDigits 10 n = '0' :: ds) :
    n = 0 := by
  induction n using Nat.strongRecOn generalizing ds with
  | ind n ih =>
    rw [Nat.toDigits_eq_if (by decide)] at h
    split_ifs at h with hlt
    · have hzero : ∀ m < 10, Nat.digitChar m = '0' → m = 0 := by decide
      exact hzero n hlt (List.cons.inj h).1
    · obtain ⟨c, cs, hcs⟩ :=
        List.exists_cons_of_ne_nil (Nat.toDigits_ne_nil (n := n / 10) (b := 10))
      rw [hcs, List.cons_append] at h
      obtain ⟨rfl, -⟩ := List.cons.inj h
      have hzero := ih (n / 10) (by omega) hcs
      omega

theorem readInt_toDigits (n : ℕ) {rest : List Char} (hrest : NoDigit rest) :
    readInt (Nat.toDigits 10 n ++ rest) = some (n, rest) := by
  by_cases hn : n = 0
  · subst hn; rfl
  · unfold readInt
    split
    · next tail htail =>
      obtain ⟨c, cs, hcs⟩ := List.exists_cons_of_ne_nil (Nat.toDigits_ne_nil (n := n) (b := 10))
      rw [hcs, List.cons_append] at htail
      obtain ⟨rfl, -⟩ := List.cons.inj htail
      exact absurd (eq_zero_of_toDigits hcs) hn
    · rw [takeWhile_digits isDigit_toDigits hrest, dropWhile_digits isDigit_toDigits hrest,
        if_neg Nat.toDigits_ne_nil, Nat.ofDigitChars_ten_toDigits]

theorem Follows.noDigit {rest : List Char} (h : Follows rest) : NoDigit rest := by
  cases rest with
  | nil => intro c hc; cases hc
  | cons c rest =>
    rintro _ ⟨⟩
    rcases h with rfl | rfl | rfl <;> rfl

theorem noDigit_expText (e : Option ℤ) {rest : List Char} (hrest : Follows rest) :
    NoDigit (expText e ++ rest) := by
  cases e with
  | none => exact hrest.noDigit
  | some e => rintro _ ⟨⟩; rfl

theorem readFrac_fracText (frac : List (Fin 10)) (e : Option ℤ) {rest : List Char}
    (hrest : Follows rest) :
    readFrac (fracText frac ++ (expText e ++ rest)) = some (frac, expText e ++ rest) := by
  have hnext := noDigit_expText e hrest
  cases frac with
  | nil =>
    cases e with
    | none =>
      cases rest with
      | nil => rfl
      | cons c rest => rcases hrest with rfl | rfl | rfl <;> rfl
    | some e => rfl
  | cons d ds =>
    have hdigits : ∀ c ∈ (d :: ds).map digitChar, c.isDigit = true := by
      intro c hc
      obtain ⟨d', -, rfl⟩ := List.mem_map.mp hc
      exact isDigit_digitChar d'
    simp only [fracText, List.cons_append, readFrac]
    rw [takeWhile_digits hdigits hnext, dropWhile_digits hdigits hnext, if_neg (by simp),
      List.map_map]
    congr 2
    exact List.map_id'' ofNat_digitChar _

theorem readSign_signText (neg : Bool) {c : Char} (hc : c ≠ '-') (rest : List Char) :
    readSign (signText neg ++ c :: rest) = (neg, c :: rest) := by
  cases neg with
  | true => rfl
  | false =>
    show readSign (c :: rest) = _
    unfold readSign
    split
    · next h => exact absurd (List.cons.inj h).1 hc
    · rfl

theorem exists_digit (n : ℕ) : ∃ c cs, Nat.toDigits 10 n = c :: cs ∧ c.isDigit = true := by
  obtain ⟨c, cs, hcs⟩ := List.exists_cons_of_ne_nil (Nat.toDigits_ne_nil (n := n) (b := 10))
  exact ⟨c, cs, hcs, isDigit_toDigits c (hcs ▸ List.mem_cons_self)⟩

theorem readSign_digits (neg : Bool) (n : ℕ) (rest : List Char) :
    readSign (signText neg ++ (Nat.toDigits 10 n ++ rest)) = (neg, Nat.toDigits 10 n ++ rest) := by
  obtain ⟨c, cs, hcs, hc⟩ := exists_digit n
  rw [hcs, List.cons_append]
  exact readSign_signText neg (by rintro rfl; cases hc) _

theorem readExp_expText (e : Option ℤ) {rest : List Char} (hrest : Follows rest) :
    readExp (expText e ++ rest) = some (e, rest) := by
  cases e with
  | none =>
    cases rest with
    | nil => rfl
    | cons c rest => rcases hrest with rfl | rfl | rfl <;> rfl
  | some e =>
    have hsign : readExpSign (signText (decide (e < 0)) ++ (Nat.toDigits 10 e.natAbs ++ rest)) =
        (decide (e < 0), Nat.toDigits 10 e.natAbs ++ rest) := by
      rw [← readSign_digits]
      obtain ⟨c, cs, hcs, hc⟩ := exists_digit e.natAbs
      rw [hcs]
      unfold readExpSign
      split
      · next h =>
        exfalso
        cases hneg : decide (e < 0) with
        | true => rw [hneg] at h; cases h
        | false =>
          rw [hneg] at h
          obtain ⟨rfl, -⟩ := List.cons.inj h
          cases hc
      · rfl
    simp only [expText, List.cons_append, readExp, List.append_assoc, hsign, true_or, if_true]
    rw [takeWhile_digits isDigit_toDigits hrest.noDigit,
      dropWhile_digits isDigit_toDigits hrest.noDigit, if_neg Nat.toDigits_ne_nil,
      Nat.ofDigitChars_ten_toDigits]
    simp only [decide_eq_true_eq]
    congr 3
    split_ifs <;> omega

theorem noDigit_fracText (frac : List (Fin 10)) (e : Option ℤ) {rest : List Char}
    (hrest : Follows rest) : NoDigit (fracText frac ++ (expText e ++ rest)) := by
  cases frac with
  | nil => exact noDigit_expText e hrest
  | cons d ds => rintro _ ⟨⟩; rfl

theorem readNumber_numberText (n : JsonNumber) {rest : List Char} (hrest : Follows rest) :
    readNumber (numberText n ++ rest) = some (n, rest) := by
  unfold readNumber numberText
  simp only [List.append_assoc]
  rw [readSign_digits]
  simp only
  rw [readInt_toDigits n.int (noDigit_fracText n.frac n.exp hrest)]
  simp only [Option.bind_some]
  rw [readFrac_fracText n.frac n.exp hrest]
  simp only [Option.bind_some]
  rw [readExp_expText n.exp hrest]
  rfl

/-! ## Numbers that go on -/

theorem takeWhile_append_follows (text : List Char) {rest : List Char} (hrest : Follows rest) :
    (text ++ rest).takeWhile Char.isDigit = text.takeWhile Char.isDigit := by
  induction text with
  | nil => simpa using takeWhile_digits (fun c (hc : c ∈ []) => nomatch hc) hrest.noDigit
  | cons c text ih =>
    rw [List.cons_append, List.takeWhile_cons, List.takeWhile_cons, ih]

theorem dropWhile_append_follows (text : List Char) {rest : List Char} (hrest : Follows rest) :
    (text ++ rest).dropWhile Char.isDigit = text.dropWhile Char.isDigit ++ rest := by
  induction text with
  | nil => exact dropWhile_digits (fun c (hc : c ∈ []) => nomatch hc) hrest.noDigit
  | cons c text ih =>
    rw [List.cons_append, List.dropWhile_cons, List.dropWhile_cons, ih]
    split <;> rfl

section Extend

variable {text tail rest : List Char} (hrest : Follows rest)

include hrest

theorem readInt_append {i : ℕ} (h : readInt text = some (i, tail)) :
    readInt (text ++ rest) = some (i, tail ++ rest) := by
  unfold readInt at h
  split at h
  · obtain ⟨rfl, rfl⟩ := Prod.mk.inj (Option.some.inj h)
    rfl
  · next hzero =>
    split_ifs at h with hnil
    obtain ⟨rfl, rfl⟩ := Prod.mk.inj (Option.some.inj h)
    unfold readInt
    split
    · next tail htail =>
      cases text with
      | nil => exact absurd rfl hnil
      | cons c text =>
        obtain ⟨rfl, _⟩ := List.cons.inj htail
        exact absurd rfl (hzero text)
    · rw [takeWhile_append_follows text hrest, dropWhile_append_follows text hrest, if_neg hnil]

theorem readFrac_append {frac : List (Fin 10)} (h : readFrac text = some (frac, tail)) :
    readFrac (text ++ rest) = some (frac, tail ++ rest) := by
  unfold readFrac at h
  split at h
  · next digits =>
    split_ifs at h with hnil
    obtain ⟨rfl, rfl⟩ := Prod.mk.inj (Option.some.inj h)
    rw [List.cons_append]
    simp only [readFrac]
    rw [takeWhile_append_follows digits hrest, dropWhile_append_follows digits hrest, if_neg hnil]
  · next hpoint =>
    obtain ⟨rfl, rfl⟩ := Prod.mk.inj (Option.some.inj h)
    unfold readFrac
    split
    · next digits hdigits =>
      cases text with
      | nil =>
        rw [List.nil_append] at hdigits
        rw [hdigits] at hrest
        rcases hrest with h | h | h <;> cases h
      | cons c text =>
        obtain ⟨rfl, _⟩ := List.cons.inj hdigits
        exact absurd rfl (hpoint text)
    · rfl

theorem readSign_append (text : List Char) :
    readSign (text ++ rest) = ((readSign text).1, (readSign text).2 ++ rest) := by
  cases text with
  | nil =>
    cases rest with
    | nil => rfl
    | cons c rest => rcases hrest with rfl | rfl | rfl <;> rfl
  | cons c text =>
    by_cases hc : c = '-'
    · subst hc; rfl
    · have hsign : ∀ text, readSign (c :: text) = (false, c :: text) :=
        readSign_signText false hc
      rw [List.cons_append, hsign, hsign]
      rfl

theorem readExpSign_append (text : List Char) :
    readExpSign (text ++ rest) = ((readExpSign text).1, (readExpSign text).2 ++ rest) := by
  cases text with
  | nil =>
    cases rest with
    | nil => rfl
    | cons c rest => rcases hrest with rfl | rfl | rfl <;> rfl
  | cons c text =>
    by_cases hc : c = '+'
    · subst hc; rfl
    · have hsign : ∀ text, readExpSign (c :: text) = readSign (c :: text) := fun text => by
        unfold readExpSign
        split
        · next h => exact absurd (List.cons.inj h).1 hc
        · rfl
      rw [List.cons_append, hsign, hsign, ← List.cons_append, readSign_append hrest]

theorem readExp_append {exp : Option ℤ} (h : readExp text = some (exp, tail)) :
    readExp (text ++ rest) = some (exp, tail ++ rest) := by
  cases text with
  | nil =>
    obtain ⟨rfl, rfl⟩ := Prod.mk.inj (Option.some.inj h)
    exact readExp_expText none hrest
  | cons c text =>
    simp only [readExp] at h
    rw [List.cons_append]
    simp only [readExp, readExpSign_append hrest, takeWhile_append_follows _ hrest,
      dropWhile_append_follows _ hrest]
    by_cases hc : c = 'e' ∨ c = 'E'
    · rw [if_pos hc] at h ⊢
      by_cases hnil : (readExpSign text).2.takeWhile Char.isDigit = []
      · rw [if_pos hnil] at h
        cases h
      · rw [if_neg hnil] at h ⊢
        obtain ⟨rfl, rfl⟩ := Prod.mk.inj (Option.some.inj h)
        rfl
    · rw [if_neg hc] at h ⊢
      obtain ⟨rfl, rfl⟩ := Prod.mk.inj (Option.some.inj h)
      rfl

/-- A text that is a number is read as it where something may follow. -/
theorem readNumber_append {n : JsonNumber} (h : readNumber text = some (n, [])) :
    readNumber (text ++ rest) = some (n, rest) := by
  unfold readNumber at h ⊢
  rw [readSign_append hrest]
  generalize readSign text = sign at h ⊢
  obtain ⟨neg, digits⟩ := sign
  obtain ⟨⟨int, afterInt⟩, hint, h⟩ := Option.bind_eq_some_iff.mp h
  obtain ⟨⟨frac, afterFrac⟩, hfrac, h⟩ := Option.bind_eq_some_iff.mp h
  obtain ⟨⟨exp, afterExp⟩, hexp, h⟩ := Option.map_eq_some_iff.mp h
  obtain ⟨rfl, rfl⟩ := Prod.mk.inj h
  simp only
  rw [readInt_append hrest hint, Option.bind_some]
  simp only
  rw [readFrac_append hrest hfrac, Option.bind_some]
  simp only
  rw [readExp_append hrest hexp]
  rfl

end Extend

/-! ## Strings -/

theorem readChars_escape (cs rest : List Char) {n : ℕ} (hn : cs.length < n) :
    readChars n (cs.flatMap esc.escape ++ '"' :: rest) = some (cs, rest) := by
  induction cs generalizing n with
  | nil =>
    obtain ⟨n, rfl⟩ := Nat.exists_eq_succ_of_ne_zero (Nat.ne_of_gt hn)
    rfl
  | cons c cs ih =>
    obtain ⟨n, rfl⟩ := Nat.exists_eq_succ_of_ne_zero (Nat.ne_of_gt (Nat.zero_lt_of_lt hn))
    have hread := esc.readChar_escape c (cs.flatMap esc.escape ++ '"' :: rest)
    rw [List.flatMap_cons, List.append_assoc]
    unfold readChars
    split
    · cases ‹_ = 0›
    · next h =>
      rw [h] at hread
      cases hread
    · next h _ =>
      obtain rfl := Nat.succ.inj h
      rw [hread, Option.bind_some]
      simp only
      rw [ih (Nat.lt_of_succ_lt_succ hn)]
      rfl

theorem escape_ne_nil (c : Char) : esc.escape c ≠ [] := by
  intro h
  have hread := esc.readChar_escape c []
  rw [h] at hread
  cases hread

theorem length_le_escape (cs : List Char) : cs.length ≤ (cs.flatMap esc.escape).length := by
  induction cs with
  | nil => exact le_rfl
  | cons c cs ih =>
    have hpos := List.length_pos_iff.mpr (escape_ne_nil esc c)
    rw [List.flatMap_cons, List.length_append, List.length_cons]
    omega

theorem readString_stringText (s : String) (rest : List Char) :
    readString (s.toList.flatMap esc.escape ++ '"' :: rest) = some (s, rest) := by
  have hlen := length_le_escape esc s.toList
  unfold readString
  rw [readChars_escape esc s.toList rest (by rw [List.length_append, List.length_cons]; omega)]
  rw [Option.map_some]
  simp only [String.ofList_toList]

theorem stringText_append (s : String) (rest : List Char) :
    stringText esc s ++ rest = '"' :: (s.toList.flatMap esc.escape ++ '"' :: rest) := by
  unfold stringText
  rw [List.cons_append, List.append_assoc]
  rfl

/-! ## Values -/

/-- A value does not start like a space or the end of an array. -/
theorem render_head (v : Json) :
    ∃ c cs, render esc v = c :: cs ∧ isSpace c = false ∧ c ≠ ']' := by
  cases v with
  | null => exact ⟨_, _, rfl, rfl, by decide⟩
  | bool b => cases b <;> exact ⟨_, _, rfl, rfl, by decide⟩
  | num n =>
    obtain ⟨c, cs, hcs, hc⟩ := exists_digit n.int
    have hspace : isSpace c = false := by
      unfold isSpace
      simp only [Bool.or_eq_false_iff, decide_eq_false_iff_not]
      refine ⟨⟨⟨?_, ?_⟩, ?_⟩, ?_⟩ <;> rintro rfl <;> cases hc
    unfold render numberText
    cases n.neg with
    | true => exact ⟨_, _, rfl, rfl, by decide⟩
    | false =>
      rw [hcs]
      exact ⟨c, _, rfl, hspace, by rintro rfl; cases hc⟩
  | str s => exact ⟨_, _, rfl, rfl, by decide⟩
  | arr values => cases values <;> exact ⟨_, _, by rw [render], rfl, by decide⟩
  | obj members => cases members <;> exact ⟨_, _, by rw [render], rfl, by decide⟩

theorem follows_renderValues (values : List Json) (rest : List Char) :
    Follows (renderValues esc values ++ rest) := by
  cases values with
  | nil => exact Or.inr (Or.inl rfl)
  | cons v values => rw [renderValues]; exact Or.inl rfl

theorem follows_renderMembers (members : List (String × Json)) (rest : List Char) :
    Follows (renderMembers esc members ++ rest) := by
  cases members with
  | nil => exact Or.inr (Or.inr rfl)
  | cons m members => rw [renderMembers]; exact Or.inl rfl

theorem readValue_number (n : ℕ) {c : Char} (hc : c.isDigit = true ∨ c = '-') (rest : List Char) :
    readValue (n + 1) (c :: rest) =
      (readNumber (c :: rest)).map fun (number, rest) => (.num number, rest) := by
  have hne : ∀ d : Char, d.isDigit = false → d ≠ '-' → c ≠ d := by
    rintro d hd hminus rfl
    rcases hc with hc | hc
    · rw [hd] at hc; cases hc
    · exact hminus hc
  have hspace : isSpace c = false := by
    unfold isSpace
    simp only [Bool.or_eq_false_iff, decide_eq_false_iff_not]
    exact ⟨⟨⟨hne _ rfl (by decide), hne _ rfl (by decide)⟩, hne _ rfl (by decide)⟩,
      hne _ rfl (by decide)⟩
  rw [readValue, skipSpace_cons hspace]
  split
  case h_7 => rfl
  all_goals
    next h => exact absurd (List.cons.inj h).1 (hne _ rfl (by decide))

theorem readValue_numberText (n : ℕ) (number : JsonNumber) {rest : List Char}
    (hrest : Follows rest) :
    readValue (n + 1) (numberText number ++ rest) = some (.num number, rest) := by
  have hread := readNumber_numberText number hrest
  have hhead : ∃ c cs, numberText number ++ rest = c :: cs ∧ (c.isDigit = true ∨ c = '-') := by
    obtain ⟨c, cs, hcs, hc⟩ := exists_digit number.int
    unfold numberText
    cases number.neg with
    | true => exact ⟨_, _, rfl, Or.inr rfl⟩
    | false => rw [hcs]; exact ⟨c, _, rfl, Or.inl hc⟩
  obtain ⟨c, cs, hcs, hc⟩ := hhead
  rw [hcs] at hread ⊢
  rw [readValue_number n hc, hread]
  rfl

theorem readValue_arr (n : ℕ) {c : Char} (hspace : isSpace c = false) (hc : c ≠ ']')
    (rest : List Char) :
    readValue (n + 1) ('[' :: c :: rest) =
      (readValue n (c :: rest)).bind fun (v, rest) =>
        (readValues n rest).map fun (values, rest) => (.arr (v :: values), rest) := by
  rw [readValue, skipSpace_cons (by decide)]
  simp only [skipSpace_cons hspace]
  split
  · next h => exact absurd (List.cons.inj h).1 hc
  · rfl

theorem readValue_obj (n : ℕ) (rest : List Char) :
    readValue (n + 1) ('{' :: '"' :: rest) =
      (readMember n ('"' :: rest)).bind fun (m, rest) =>
        (readMembers n rest).map fun (members, rest) => (.obj (m :: members), rest) := by
  rw [readValue]
  rfl

theorem readMembers_comma (n : ℕ) (rest : List Char) :
    readMembers (n + 1) (',' :: rest) =
      (readMember n rest).bind fun (m, rest) =>
        (readMembers n rest).map fun (members, rest) => (m :: members, rest) := by
  rw [readMembers]
  rfl

theorem readValues_comma (n : ℕ) (rest : List Char) :
    readValues (n + 1) (',' :: rest) =
      (readValue n rest).bind fun (v, rest) =>
        (readValues n rest).map fun (values, rest) => (v :: values, rest) := by
  rw [readValues]
  rfl

theorem readMember_name (n : ℕ) (key : String) (rest : List Char) :
    readMember (n + 1) ('"' :: (key.toList.flatMap esc.escape ++ '"' :: ':' :: rest)) =
      (readValue n rest).map fun (v, rest) => ((key, v), rest) := by
  rw [readMember, skipSpace_cons (by decide)]
  simp only
  rw [readString_stringText, Option.bind_some]
  simp only [skipSpace_cons (show isSpace ':' = false from rfl)]

theorem renderMember_append (m : String × Json) (rest : List Char) :
    renderMember esc m ++ rest =
      '"' :: (m.1.toList.flatMap esc.escape ++ '"' :: ':' :: (render esc m.2 ++ rest)) := by
  rw [renderMember, List.append_assoc, stringText_append]
  rfl

mutual

theorem readValue_render (v : Json) {n : ℕ} {rest : List Char} (hn : (render esc v).length ≤ n)
    (hrest : Follows rest) : readValue n (render esc v ++ rest) = some (v, rest) := by
  obtain ⟨c, cs, hcs, hspace, hc⟩ := render_head esc v
  -- the text is not empty, so there is fuel for the first character
  obtain ⟨n, rfl⟩ : ∃ m, n = m + 1 := Nat.exists_eq_succ_of_ne_zero (by
    rw [hcs, List.length_cons] at hn; omega)
  match v with
  | .null => rw [render]; rfl
  | .bool true => rw [render]; rfl
  | .bool false => rw [render]; rfl
  | .num number => rw [render]; exact readValue_numberText n number hrest
  | .str s =>
    rw [render, stringText_append, readValue, skipSpace_cons (by decide)]
    simp only
    rw [readString_stringText]
    rfl
  | .arr [] => rw [render]; rfl
  | .arr (v :: values) =>
    rw [render, List.length_cons, List.length_append] at hn
    obtain ⟨c, cs, hcs, hspace, hc⟩ := render_head esc v
    have hvalue := readValue_render v (n := n) (by omega) (follows_renderValues esc values rest)
    have hvalues : readValues n (renderValues esc values ++ rest) = some (values, rest) :=
      readValues_render values (by omega)
    rw [render, List.cons_append, List.append_assoc]
    rw [hcs, List.cons_append] at hvalue ⊢
    rw [readValue_arr n hspace hc, hvalue, Option.bind_some]
    simp only
    rw [hvalues]
    rfl
  | .obj [] => rw [render]; rfl
  | .obj (m :: members) =>
    rw [render, List.length_cons, List.length_append] at hn
    have hmember := readMember_render m (n := n) (by omega) (follows_renderMembers esc members rest)
    have hmembers : readMembers n (renderMembers esc members ++ rest) = some (members, rest) :=
      readMembers_render members (by omega)
    rw [render, List.cons_append, List.append_assoc]
    rw [renderMember_append] at hmember ⊢
    rw [readValue_obj, hmember, Option.bind_some]
    simp only
    rw [hmembers]
    rfl

theorem readValues_render (values : List Json) {n : ℕ} {rest : List Char}
    (hn : (renderValues esc values).length ≤ n) :
    readValues n (renderValues esc values ++ rest) = some (values, rest) := by
  match values with
  | [] =>
    obtain ⟨n, rfl⟩ := Nat.exists_eq_succ_of_ne_zero (Nat.ne_of_gt hn)
    rw [renderValues]; rfl
  | v :: values =>
    rw [renderValues, List.length_cons, List.length_append] at hn
    obtain ⟨n, rfl⟩ : ∃ m, n = m + 1 := Nat.exists_eq_succ_of_ne_zero (by omega)
    have hvalue := readValue_render v (n := n) (by omega) (follows_renderValues esc values rest)
    have hvalues : readValues n (renderValues esc values ++ rest) = some (values, rest) :=
      readValues_render values (by omega)
    rw [renderValues, List.cons_append, List.append_assoc, readValues_comma, hvalue,
      Option.bind_some]
    simp only
    rw [hvalues]
    rfl

theorem readMember_render (m : String × Json) {n : ℕ} {rest : List Char}
    (hn : (renderMember esc m).length ≤ n) (hrest : Follows rest) :
    readMember n (renderMember esc m ++ rest) = some (m, rest) := by
  match m with
  | (key, v) =>
    rw [renderMember, List.length_append, List.length_cons] at hn
    obtain ⟨n, rfl⟩ : ∃ m, n = m + 1 := Nat.exists_eq_succ_of_ne_zero (by omega)
    have hvalue := readValue_render v (n := n) (by omega) hrest
    rw [renderMember_append, readMember_name, hvalue]
    rfl

theorem readMembers_render (members : List (String × Json)) {n : ℕ} {rest : List Char}
    (hn : (renderMembers esc members).length ≤ n) :
    readMembers n (renderMembers esc members ++ rest) = some (members, rest) := by
  match members with
  | [] =>
    obtain ⟨n, rfl⟩ := Nat.exists_eq_succ_of_ne_zero (Nat.ne_of_gt hn)
    rw [renderMembers]; rfl
  | m :: members =>
    rw [renderMembers, List.length_cons, List.length_append] at hn
    obtain ⟨n, rfl⟩ : ∃ m, n = m + 1 := Nat.exists_eq_succ_of_ne_zero (by omega)
    have hmember := readMember_render m (n := n) (by omega) (follows_renderMembers esc members rest)
    have hmembers : readMembers n (renderMembers esc members ++ rest) = some (members, rest) :=
      readMembers_render members (by omega)
    rw [renderMembers, List.cons_append, List.append_assoc, readMembers_comma, hmember,
      Option.bind_some]
    simp only
    rw [hmembers]
    rfl

end

/-- The value whose text is read is read. -/
theorem loads_render (v : Json) : loads (render esc v) = some v := by
  have hread := readValue_render esc v le_rfl (show Follows [] from trivial)
  rw [List.append_nil] at hread
  unfold loads
  rw [hread]
  rfl

end Json
