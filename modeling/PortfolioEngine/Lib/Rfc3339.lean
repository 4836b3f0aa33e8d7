import Mathlib.Algebra.Order.Ring.Int
import Mathlib.Data.List.TakeWhile

/-!
# Timestamps as text

`datetime.isoformat` in Python for a UTC time without microseconds, and `time.Parse` in Go with the
layout `RFC3339`, over the proleptic Gregorian calendar. An instant is a number of seconds or
nanoseconds since the epoch.

`parse_isoformat`: Go reads the instant that Python writes.
-/

namespace Rfc3339

/-! ## The calendar -/

def isLeap (year : ℕ) : Bool := year % 4 = 0 && (year % 100 != 0 || year % 400 = 0)

def daysIn (month year : ℕ) : ℕ :=
  if month = 2 then if isLeap year then 29 else 28
  else if month = 4 || month = 6 || month = 9 || month = 11 then 30
  else 31

/-- The days from 1 January of the year 1 to 1 January of `year`. -/
def daysBeforeYear (year : ℕ) : ℤ :=
  let y : ℤ := year - 1
  365 * y + y / 4 - y / 100 + y / 400

def daysBeforeMonth (month year : ℕ) : ℕ :=
  ((List.range (month - 1)).map fun i => daysIn (i + 1) year).sum

/-- The seconds since the epoch, which is 719162 days after 1 January of the year 1. -/
def epochSeconds (year month day hour minute second : ℕ) : ℤ :=
  (daysBeforeYear year + daysBeforeMonth month year + (day - 1) - 719162) * 86400 +
    hour * 3600 + minute * 60 + second

example : epochSeconds 1970 1 1 0 0 0 = 0 := by decide

example : epochSeconds 2024 2 29 0 5 0 = 1709165100 := by decide

/-- A `datetime` in UTC without microseconds. -/
structure DateTime where
  year : ℕ
  month : ℕ
  day : ℕ
  hour : ℕ
  minute : ℕ
  second : ℕ
  year_mem : 1 ≤ year ∧ year ≤ 9999
  month_mem : 1 ≤ month ∧ month ≤ 12
  day_mem : 1 ≤ day ∧ day ≤ daysIn month year
  hour_le : hour ≤ 23
  minute_le : minute ≤ 59
  second_le : second ≤ 59

namespace DateTime

def seconds (t : DateTime) : ℤ := epochSeconds t.year t.month t.day t.hour t.minute t.second

theorem day_le (t : DateTime) : t.day ≤ 31 := by
  have h := t.day_mem.2
  unfold daysIn at h
  split_ifs at h <;> omega

end DateTime

/-! ## Writing -/

def digit (d : ℕ) : Char := Nat.digitChar d

def twoDigits (n : ℕ) : List Char := [digit (n / 10), digit (n % 10)]

def fourDigits (n : ℕ) : List Char :=
  [digit (n / 1000), digit (n / 100 % 10), digit (n / 10 % 10), digit (n % 10)]

/-- `t.isoformat()`. -/
def isoformat (t : DateTime) : List Char :=
  fourDigits t.year ++ '-' :: (twoDigits t.month ++ '-' :: (twoDigits t.day ++ 'T' ::
    (twoDigits t.hour ++ ':' :: (twoDigits t.minute ++ ':' :: (twoDigits t.second ++
      ['+', '0', '0', ':', '0', '0'])))))

/-! ## Reading -/

def digitValue (c : Char) : ℕ := c.toNat - '0'.toNat

/-- `parseUint`: a number between `min` and `max`, digits only. -/
def parseUint (text : List Char) (min max : ℕ) : Option ℕ :=
  let x := text.foldl (fun x c => x * 10 + digitValue c) 0
  if text.all Char.isDigit ∧ min ≤ x ∧ x ≤ max then some x else none

/-- `parseNanoseconds`: of the digits after the point nine count. -/
def nanoseconds (digits : List Char) : ℕ :=
  let digits := digits.take 9
  digits.foldl (fun x c => x * 10 + digitValue c) 0 * 10 ^ (9 - digits.length)

/-- The fraction of a second, if there is one, and what follows. -/
def parseFraction : List Char → ℕ × List Char
  | '.' :: rest =>
    if rest.takeWhile Char.isDigit = [] then (0, '.' :: rest)
    else (nanoseconds (rest.takeWhile Char.isDigit), rest.dropWhile Char.isDigit)
  | rest => (0, rest)

/-- The seconds by which the zone is ahead of UTC. -/
def parseZone : List Char → Option ℤ
  | ['Z'] => some 0
  | [sign, h₁, h₂, ':', m₁, m₂] => do
    let hour ← parseUint [h₁, h₂] 0 23
    let minute ← parseUint [m₁, m₂] 0 59
    if sign = '+' then some ((hour * 60 + minute) * 60)
    else if sign = '-' then some (-((hour * 60 + minute) * 60))
    else none
  | _ => none

/-- `parseRFC3339`, which `time.Parse` tries first for this layout: the nanoseconds since the
epoch. -/
def parse : List Char → Option ℤ
  | y₁ :: y₂ :: y₃ :: y₄ :: '-' :: m₁ :: m₂ :: '-' :: d₁ :: d₂ :: 'T' :: h₁ :: h₂ :: ':' ::
      i₁ :: i₂ :: ':' :: s₁ :: s₂ :: rest => do
    let year ← parseUint [y₁, y₂, y₃, y₄] 0 9999
    let month ← parseUint [m₁, m₂] 1 12
    let day ← parseUint [d₁, d₂] 1 (daysIn month year)
    let hour ← parseUint [h₁, h₂] 0 23
    let minute ← parseUint [i₁, i₂] 0 59
    let second ← parseUint [s₁, s₂] 0 59
    let (nanos, zone) := parseFraction rest
    let offset ← parseZone zone
    some ((epochSeconds year month day hour minute second - offset) * 1000000000 + nanos)
  | _ => none

/-! ## Reading back -/

theorem isDigit_digit {d : ℕ} (h : d < 10) : (digit d).isDigit = true := by
  have hall : ∀ d < 10, (digit d).isDigit = true := by decide
  exact hall d h

theorem digitValue_digit {d : ℕ} (h : d < 10) : digitValue (digit d) = d := by
  have hall : ∀ d < 10, digitValue (digit d) = d := by decide
  exact hall d h

theorem parseUint_twoDigits {n min max : ℕ} (hn : n < 100) (hmin : min ≤ n) (hmax : n ≤ max) :
    parseUint (twoDigits n) min max = some n := by
  have hvalue : (0 * 10 + n / 10) * 10 + n % 10 = n := by omega
  unfold parseUint twoDigits
  simp only [List.all_cons, List.all_nil, List.foldl_cons, List.foldl_nil,
    isDigit_digit (show n / 10 < 10 by omega), isDigit_digit (show n % 10 < 10 by omega),
    digitValue_digit (show n / 10 < 10 by omega), digitValue_digit (show n % 10 < 10 by omega),
    hvalue]
  rw [if_pos ⟨rfl, hmin, hmax⟩]

theorem parseUint_fourDigits {n min max : ℕ} (hn : n < 10000) (hmin : min ≤ n) (hmax : n ≤ max) :
    parseUint (fourDigits n) min max = some n := by
  have hvalue : (((0 * 10 + n / 1000) * 10 + n / 100 % 10) * 10 + n / 10 % 10) * 10 + n % 10 =
      n := by omega
  unfold parseUint fourDigits
  simp only [List.all_cons, List.all_nil, List.foldl_cons, List.foldl_nil,
    isDigit_digit (show n / 1000 < 10 by omega), isDigit_digit (show n / 100 % 10 < 10 by omega),
    isDigit_digit (show n / 10 % 10 < 10 by omega), isDigit_digit (show n % 10 < 10 by omega),
    digitValue_digit (show n / 1000 < 10 by omega),
    digitValue_digit (show n / 100 % 10 < 10 by omega),
    digitValue_digit (show n / 10 % 10 < 10 by omega),
    digitValue_digit (show n % 10 < 10 by omega), hvalue]
  rw [if_pos ⟨rfl, hmin, hmax⟩]

/-- Go reads the instant that Python writes. -/
theorem parse_isoformat (t : DateTime) : parse (isoformat t) = some (t.seconds * 1000000000) := by
  have hyear := t.year_mem
  have hmonth := t.month_mem
  have hday := t.day_le
  have hhour := t.hour_le
  have hminute := t.minute_le
  have hsecond := t.second_le
  have hzone : parseZone ['+', '0', '0', ':', '0', '0'] = some 0 := by decide
  have hread : parse (isoformat t) = (do
      let year ← parseUint (fourDigits t.year) 0 9999
      let month ← parseUint (twoDigits t.month) 1 12
      let day ← parseUint (twoDigits t.day) 1 (daysIn month year)
      let hour ← parseUint (twoDigits t.hour) 0 23
      let minute ← parseUint (twoDigits t.minute) 0 59
      let second ← parseUint (twoDigits t.second) 0 59
      let offset ← parseZone ['+', '0', '0', ':', '0', '0']
      some ((epochSeconds year month day hour minute second - offset) * 1000000000 + (0 : ℕ))) :=
    rfl
  rw [hread, hzone, parseUint_fourDigits (by omega) (by omega) (by omega),
    parseUint_twoDigits (n := t.month) (by omega) (by omega) (by omega),
    parseUint_twoDigits (n := t.hour) (by omega) (by omega) (by omega),
    parseUint_twoDigits (n := t.minute) (by omega) (by omega) (by omega),
    parseUint_twoDigits (n := t.second) (by omega) (by omega) (by omega)]
  simp only [Option.bind_eq_bind, Option.bind_some]
  rw [parseUint_twoDigits (by omega) t.day_mem.1 t.day_mem.2, Option.bind_some]
  unfold DateTime.seconds
  simp

end Rfc3339
