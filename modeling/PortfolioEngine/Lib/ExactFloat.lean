import Mathlib.Algebra.BigOperators.Group.Finset.Basic
import Mathlib.Algebra.Order.Field.Basic
import Mathlib.Tactic.Ring

/-!
# Floats in exact arithmetic

`Flt K` is a float whose finite values are the elements of an ordered field `K`, with the two
infinities and NaN of IEEE 754 and no rounding. There is one zero, so a quotient by zero takes
the sign of its numerator.

`divide` is division where a zero divisor is a failure, not a value.
-/

/-- A finite value, an infinity or NaN. -/
inductive Flt (K : Type*) where
  | fin (x : K)
  | inf
  | negInf
  | nan
  deriving DecidableEq

namespace Flt

variable {K : Type*}

/-- Neither infinite nor NaN. -/
def toFin? : Flt K → Option K
  | fin x => some x
  | _ => none

@[simp] theorem toFin?_fin (x : K) : (fin x).toFin? = some x := rfl
@[simp] theorem toFin?_inf : (inf : Flt K).toFin? = none := rfl
@[simp] theorem toFin?_negInf : (negInf : Flt K).toFin? = none := rfl
@[simp] theorem toFin?_nan : (nan : Flt K).toFin? = none := rfl

/-- `isnan`. -/
def isNan : Flt K → Bool
  | nan => true
  | _ => false

section Order

variable [LinearOrder K]

/-- Strict comparison; every comparison with NaN is false. -/
def lt : Flt K → Flt K → Prop
  | fin x, fin y => x < y
  | fin _, inf => True
  | negInf, fin _ => True
  | negInf, inf => True
  | _, _ => False

/-- Comparison; every comparison with NaN is false. -/
def le : Flt K → Flt K → Prop
  | fin x, fin y => x ≤ y
  | fin _, inf => True
  | inf, inf => True
  | negInf, fin _ => True
  | negInf, inf => True
  | negInf, negInf => True
  | _, _ => False

instance : LT (Flt K) := ⟨lt⟩
instance : LE (Flt K) := ⟨le⟩

instance decLt (a b : Flt K) : Decidable (a < b) := by
  show Decidable (lt a b)
  cases a <;> cases b <;> unfold lt <;> infer_instance

instance decLe (a b : Flt K) : Decidable (a ≤ b) := by
  show Decidable (le a b)
  cases a <;> cases b <;> unfold le <;> infer_instance

@[simp] theorem fin_lt_fin {x y : K} : (fin x : Flt K) < fin y ↔ x < y := Iff.rfl
@[simp] theorem fin_le_fin {x y : K} : (fin x : Flt K) ≤ fin y ↔ x ≤ y := Iff.rfl

end Order

section Arith

variable [Field K] [LinearOrder K]

/-- The infinity with the sign of `x`; NaN for zero. -/
def signedInf (x : K) : Flt K := if 0 < x then inf else if x < 0 then negInf else nan

def neg : Flt K → Flt K
  | fin x => fin (-x)
  | inf => negInf
  | negInf => inf
  | nan => nan

def add : Flt K → Flt K → Flt K
  | fin x, fin y => fin (x + y)
  | nan, _ => nan
  | _, nan => nan
  | inf, negInf => nan
  | negInf, inf => nan
  | inf, _ => inf
  | _, inf => inf
  | negInf, _ => negInf
  | _, negInf => negInf

def sub (a b : Flt K) : Flt K := add a (neg b)

def mul : Flt K → Flt K → Flt K
  | fin x, fin y => fin (x * y)
  | nan, _ => nan
  | _, nan => nan
  | inf, fin y => signedInf y
  | fin x, inf => signedInf x
  | negInf, fin y => signedInf (-y)
  | fin x, negInf => signedInf (-x)
  | inf, inf => inf
  | negInf, negInf => inf
  | inf, negInf => negInf
  | negInf, inf => negInf

/-- Division: `x / 0` is an infinity for `x ≠ 0` and `0 / 0` is NaN. -/
def div : Flt K → Flt K → Flt K
  | fin x, fin y => if y = 0 then signedInf x else fin (x / y)
  | nan, _ => nan
  | _, nan => nan
  | fin _, _ => fin 0
  | inf, fin y => if y < 0 then negInf else inf
  | negInf, fin y => if y < 0 then inf else negInf
  | _, _ => nan

omit [LinearOrder K] in
theorem sub_fin (x y : K) : sub (fin x) (fin y) = fin (x - y) := by
  show fin (x + -y) = fin (x - y)
  rw [sub_eq_add_neg]

theorem div_fin {y : K} (hy : y ≠ 0) (x : K) : div (fin x) (fin y) = fin (x / y) := by
  show (if y = 0 then signedInf x else fin (x / y)) = fin (x / y)
  rw [if_neg hy]

/-- `abs`. -/
def abs : Flt K → Flt K
  | fin x => fin |x|
  | nan => nan
  | _ => inf

end Arith

/-! ### A positive factor -/

section Scale

variable [Field K] [LinearOrder K] [IsStrictOrderedRing K] {c : K}

omit [IsStrictOrderedRing K] in
theorem mul_inf (hc : 0 < c) : (fin c).mul inf = inf := if_pos hc

theorem mul_negInf (hc : 0 < c) : (fin c).mul negInf = negInf := by
  show signedInf (-c) = negInf
  unfold signedInf
  rw [if_neg (neg_nonpos.mpr hc.le).not_gt, if_pos (neg_lt_zero.mpr hc)]

theorem mul_neg_iff_neg (hc : 0 < c) (x : K) : c * x < 0 ↔ x < 0 := by
  rw [← not_le, ← not_le, mul_nonneg_iff_of_pos_left hc]

theorem signedInf_mul (hc : 0 < c) (x : K) : signedInf (c * x) = signedInf x := by
  unfold signedInf
  simp only [mul_pos_iff_of_pos_left hc, mul_neg_iff_neg hc]

theorem mul_div_mul (hc : 0 < c) (x y : Flt K) : ((fin c).mul x).div ((fin c).mul y) = x.div y := by
  cases x with
  | fin x =>
    cases y with
    | fin y =>
      show (if c * y = 0 then signedInf (c * x) else fin (c * x / (c * y))) =
        if y = 0 then signedInf x else fin (x / y)
      rw [signedInf_mul hc, mul_div_mul_left x y hc.ne']
      simp only [mul_eq_zero, hc.ne', false_or]
    | inf => rw [mul_inf hc]; rfl
    | negInf => rw [mul_negInf hc]; rfl
    | nan => rfl
  | inf =>
    rw [mul_inf hc]
    cases y with
    | fin y =>
      show (if c * y < 0 then negInf else inf) = if y < 0 then negInf else inf
      simp only [mul_neg_iff_neg hc]
    | inf => rw [mul_inf hc]
    | negInf => rw [mul_negInf hc]
    | nan => rfl
  | negInf =>
    rw [mul_negInf hc]
    cases y with
    | fin y =>
      show (if c * y < 0 then inf else negInf) = if y < 0 then inf else negInf
      simp only [mul_neg_iff_neg hc]
    | inf => rw [mul_inf hc]
    | negInf => rw [mul_negInf hc]
    | nan => rfl
  | nan => rfl

theorem mul_le_zero (hc : 0 < c) (x : Flt K) : (fin c).mul x ≤ fin 0 ↔ x ≤ fin 0 := by
  cases x with
  | fin x =>
    show c * x ≤ 0 ↔ x ≤ 0
    rw [← not_lt, ← not_lt, mul_pos_iff_of_pos_left hc]
  | inf => rw [mul_inf hc]
  | negInf => rw [mul_negInf hc]
  | nan => exact Iff.rfl

end Scale

section Sum

variable [Field K]

instance : Zero (Flt K) := ⟨fin 0⟩
instance : Add (Flt K) := ⟨add⟩

/-- Sums do not depend on the order of their terms: an infinity stays, and two different ones or a
NaN make NaN. -/
instance : AddCommMonoid (Flt K) where
  nsmul := nsmulRec
  add_assoc := by
    rintro (x | _ | _ | _) (y | _ | _ | _) (z | _ | _ | _)
    · exact congrArg fin (add_assoc x y z)
    all_goals rfl
  zero_add := by
    rintro (x | _ | _ | _)
    · exact congrArg fin (zero_add x)
    all_goals rfl
  add_zero := by
    rintro (x | _ | _ | _)
    · exact congrArg fin (add_zero x)
    all_goals rfl
  add_comm := by
    rintro (x | _ | _ | _) (y | _ | _ | _)
    · exact congrArg fin (add_comm x y)
    all_goals rfl

theorem sum_fin {ι : Type*} (s : Finset ι) (f : ι → K) :
    ∑ i ∈ s, fin (f i) = fin (∑ i ∈ s, f i) :=
  (map_sum (⟨⟨fin, rfl⟩, fun _ _ => rfl⟩ : K →+ Flt K) f s).symm

end Sum

end Flt

/-! ## Division that fails -/

section Divide

variable {K : Type*} [Field K] [DecidableEq K]

/-- `a / b`, failing on a zero divisor. -/
def divide (a b : K) : Option K := if b = 0 then none else some (a / b)

theorem divide_eq_some {b : K} (hb : b ≠ 0) (a : K) : divide a b = some (a / b) := by
  unfold divide; rw [if_neg hb]

/-- `v / b` over an array, failing on a zero divisor. -/
def divideAll {ι : Type*} (v : ι → K) (b : K) : Option (ι → K) :=
  if b = 0 then none else some fun i => v i / b

theorem divideAll_eq_some {ι : Type*} {b : K} (hb : b ≠ 0) (v : ι → K) :
    divideAll v b = some fun i => v i / b := by
  unfold divideAll; rw [if_neg hb]

end Divide

/-! ## Arrays of fallible entries -/

section Collect

variable {α : Type*} {n : ℕ}

/-- The array of the values of `f`, failing if one entry fails. -/
def collect (f : Fin n → Option α) : Option (Fin n → α) :=
  if h : ∀ i, (f i).isSome then some fun i => (f i).get (h i) else none

theorem collect_eq_some {f : Fin n → Option α} {g : Fin n → α} (h : ∀ i, f i = some (g i)) :
    collect f = some g := by
  have hs : ∀ i, (f i).isSome := fun i => by rw [h i]; rfl
  unfold collect
  rw [dif_pos hs]
  exact congrArg some (funext fun i => Option.get_of_eq_some (hs i) (h i))

end Collect
