import Mathlib.Analysis.SpecialFunctions.Log.Basic
import PortfolioEngine.Features.Consume
import PortfolioEngine.Features.Doubles

/-!
# numpy over the reals

The elementwise functions are numpy's. Skewness and kurtosis are those of a window of equal values,
where pandas 2 gives 0 and -3, so these instances are for such windows and for what uses neither.
The candles of one price give such windows; from the 62nd on each of them stores a row.
-/

namespace PortfolioEngine.Features

open Recent

/-- numpy over the reals, for windows of equal values. -/
noncomputable def realNumerics : Numerics ℝ where
  log x := match x with
    | .fin x => if 0 < x then .fin (Real.log x) else if x = 0 then .negInf else .nan
    | .inf => .inf
    | _ => .nan
  sqrt x := match x with
    | .fin x => if 0 ≤ x then .fin (Real.sqrt x) else .nan
    | .inf => .inf
    | _ => .nan
  skew _ := .fin 0
  kurt _ := .fin (-3.0)
  sortIndex buf := buf.mergeSort fun x y => x.time ≤ y.time
  sortIndex_perm buf := List.mergeSort_perm buf _
  sortIndex_sorted buf := by
    have htrans : ∀ x y z : PriceRow ℝ, decide (x.time ≤ y.time) = true →
        decide (y.time ≤ z.time) = true → decide (x.time ≤ z.time) = true := by
      simp only [decide_eq_true_eq]
      exact fun x y z => le_trans
    have htotal : ∀ x y : PriceRow ℝ,
        (decide (x.time ≤ y.time) || decide (y.time ≤ x.time)) = true := by
      simp only [Bool.or_eq_true, decide_eq_true_eq]
      exact fun x y => le_total _ _
    exact (List.pairwise_mergeSort htrans htotal buf).imp of_decide_eq_true

/-! ## Doubles -/

/-- Where a double overflows. -/
def doubleLimit : ℝ := (2 ^ 1024 - 2 ^ 970 : ℕ)

/-- Up to here a double is zero. -/
noncomputable def doubleTiny : ℝ := 1 / (2 ^ 1075 : ℕ)

/-- The range of doubles, without the rounding in it, which the values below do not need. -/
noncomputable def doubleRound (x : ℝ) : Flt ℝ :=
  if doubleLimit ≤ x then .inf else if x ≤ -doubleLimit then .negInf
  else if |x| ≤ doubleTiny then .fin 0 else .fin x

/-- numpy and pandas on such doubles; a statistic that would overflow is missing. -/
noncomputable def realDoubles : Doubles ℝ where
  round := doubleRound
  log := realNumerics.log
  sqrt := realNumerics.sqrt
  rolling stat w s := (rolled w (stat.aggregate realNumerics) s).map fun x =>
    match x with
    | .fin y => if |y| < doubleLimit then .fin y else .nan
    | _ => .nan

theorem doubleLimit_eq : doubleLimit = 2 ^ 1024 - 2 ^ 970 := by
  have hle : 2 ^ 970 ≤ 2 ^ 1024 := pow_le_pow_right₀ one_le_two (by decide)
  unfold doubleLimit
  rw [Nat.cast_sub hle, Nat.cast_pow, Nat.cast_pow, Nat.cast_ofNat]

theorem doubleTiny_eq : doubleTiny = 1 / 2 ^ 1075 := by
  unfold doubleTiny
  rw [Nat.cast_pow, Nat.cast_ofNat]

theorem doubleTiny_lt_one : doubleTiny < 1 := by
  rw [doubleTiny_eq]
  rw [div_lt_one (by positivity)]
  exact one_lt_pow₀ one_lt_two (by decide)

theorem doubleTiny_pos : 0 < doubleTiny := by
  rw [doubleTiny_eq]
  positivity

theorem lt_doubleLimit : 10000000 < doubleLimit := by
  have hsplit : (2 : ℝ) ^ 1024 = 2 ^ 970 * 2 ^ 54 := by rw [← pow_add]
  have hle : (2 : ℝ) ^ 24 ≤ 2 ^ 970 := pow_le_pow_right₀ one_le_two (by decide)
  rw [doubleLimit_eq, hsplit]
  generalize (2 : ℝ) ^ 970 = a at hle ⊢
  linarith

theorem doubleRound_of_lt {x : ℝ} (hx : |x| < doubleLimit) :
    doubleRound x = if |x| ≤ doubleTiny then .fin 0 else .fin x := by
  obtain ⟨hneg, hpos⟩ := abs_lt.mp hx
  unfold doubleRound
  rw [if_neg (not_le.mpr hpos), if_neg (not_le.mpr hneg)]

theorem doubleRound_eq_fin {x : ℝ} (hlt : x < doubleLimit) (hgt : doubleTiny < x) :
    doubleRound x = .fin x := by
  have hpos := doubleTiny_pos.trans hgt
  rw [doubleRound_of_lt (by rwa [abs_of_pos hpos]), abs_of_pos hpos, if_neg (not_le.mpr hgt)]

theorem range_doubleRound : Flt.Range doubleRound doubleTiny doubleLimit where
  tiny_lt_one := doubleTiny_lt_one
  one_lt_limit := lt_trans (by norm_num) lt_doubleLimit
  round_fin x hx := by
    rw [doubleRound_of_lt hx]
    split_ifs
    · refine ⟨0, rfl, ?_, ?_⟩ <;> rw [abs_zero]
      · exact (abs_nonneg x).trans_lt hx
      · positivity
    · exact ⟨x, rfl, hx, by linarith [abs_nonneg x]⟩
  round_inf x hx := if_pos hx
  round_pos x hgt hlt := ⟨x, doubleRound_eq_fin hlt hgt, doubleTiny_pos.trans hgt⟩
  round_tiny x h0 hle := by
    have hlt : |x| < doubleLimit := by
      rw [abs_of_nonneg h0]
      linarith [doubleTiny_lt_one, lt_doubleLimit]
    rw [doubleRound_of_lt hlt, if_pos (by rwa [abs_of_nonneg h0])]
  round_round x y hxy := by
    unfold doubleRound at hxy
    split_ifs at hxy with hinf hneg htiny
    · obtain rfl := Flt.fin.inj hxy
      have hlt : |(0 : ℝ)| < doubleLimit := by
        rw [abs_zero]
        linarith [lt_doubleLimit]
      rw [doubleRound_of_lt hlt, if_pos (by rw [abs_zero]; exact doubleTiny_pos.le)]
    · obtain rfl := Flt.fin.inj hxy
      unfold doubleRound
      rw [if_neg hinf, if_neg hneg, if_neg htiny]

theorem log_two_lt_one : Real.log 2 < 1 := by
  linarith [Real.log_lt_sub_one_of_pos two_pos (by norm_num)]

theorem half_le_log_two : 1 / 2 ≤ Real.log 2 := by
  linarith [Real.one_sub_inv_le_log_of_pos (two_pos (α := ℝ))]

/-- The logarithm of a double is at most 1075. -/
theorem abs_log_le {x : ℝ} (hx : 0 < x) (hdouble : doubleRound x = .fin x) :
    |Real.log x| ≤ 1075 := by
  have hlt := range_doubleRound.lt_limit hdouble
  have hgt : doubleTiny < x := by
    by_contra hle
    rw [range_doubleRound.round_tiny x hx.le (not_lt.mp hle)] at hdouble
    exact hx.ne (Flt.fin.inj hdouble)
  have htwo := log_two_lt_one
  have hle : Real.log x ≤ 1024 * Real.log 2 := by
    have hpow : Real.log (2 ^ 1024) = 1024 * Real.log 2 := by
      rw [Real.log_pow]
      norm_num
    have hpos : (0 : ℝ) < 2 ^ 970 := by positivity
    rw [doubleLimit_eq] at hlt
    rw [← hpow]
    exact Real.log_le_log hx (hlt.trans (sub_lt_self _ hpos)).le
  have hge : -(1075 * Real.log 2) ≤ Real.log x := by
    have htiny : Real.log doubleTiny = -(1075 * Real.log 2) := by
      rw [doubleTiny_eq, one_div, Real.log_inv, Real.log_pow]
      norm_num
    rw [← htiny]
    exact Real.log_le_log doubleTiny_pos hgt.le
  have hhalf := half_le_log_two
  rw [abs_le]
  constructor <;> linarith

/-! ## Steady candles -/

/-- The candle of the minute `i`, with one price and a steady volume. -/
def steadyCandle (s : Symbol) (i : ℕ) : PriceRow ℝ := ⟨i * minute, s, 1, 1, 1, 1, 1⟩

/-- Those of the first `n` minutes. -/
def steady (s : Symbol) (n : ℕ) : List (PriceRow ℝ) := (List.range n).map (steadyCandle s)

section Steady

variable {s : Symbol} {n : ℕ}

theorem steady_succ (s : Symbol) (n : ℕ) : steady s (n + 1) = steady s n ++ [steadyCandle s n] := by
  unfold steady
  rw [List.range_succ, List.map_append, List.map_singleton]

@[simp] theorem length_steady (s : Symbol) (n : ℕ) : (steady s n).length = n := by
  unfold steady
  rw [List.length_map, List.length_range]

theorem mem_steady {c : PriceRow ℝ} : c ∈ steady s n ↔ ∃ i < n, steadyCandle s i = c := by
  simp [steady]

theorem time_steadyCandle_lt {i j : ℕ} (h : i < j) :
    (steadyCandle s i).time < (steadyCandle s j).time := by
  show (i : ℤ) * minute < j * minute
  unfold minute
  omega

theorem sorted_steady (s : Symbol) (n : ℕ) :
    (steady s n).Pairwise fun x y => x.time < y.time :=
  List.pairwise_map.mpr (List.pairwise_lt_range.imp time_steadyCandle_lt)

theorem not_mem_keys_steady (s : Symbol) (n : ℕ) :
    (steadyCandle s n).key ∉ (steady s n).map PriceRow.key := by
  intro h
  obtain ⟨c, hc, hkey⟩ := List.mem_map.mp h
  obtain ⟨i, hi, rfl⟩ := mem_steady.mp hc
  exact (time_steadyCandle_lt (s := s) hi).ne (congrArg Prod.snd hkey)

theorem buffer_steady (s : Symbol) (n : ℕ) :
    buffer (steady s n) (steadyCandle s n) = (steady s (n + 1)).rtake bufferSize := by
  unfold buffer
  rw [← steady_succ, List.filter_eq_self.mpr]
  intro c hc
  obtain ⟨i, _, rfl⟩ := mem_steady.mp hc
  exact decide_eq_true rfl

theorem warm_steady_iff : Warm (steady s n) (steadyCandle s n) ↔ 61 ≤ n := by
  have hmin : minBuffer = 62 := by decide
  unfold Warm
  rw [buffer_steady, length_rtake, length_steady, hmin]
  unfold bufferSize
  omega

variable (s n) in
/-- The rows of the candles from the 62nd on. -/
noncomputable def steadyRows : List (FeatureRow ℝ) :=
  (List.range (n - 61)).map fun j =>
    rowFor realNumerics (steady s (61 + j)) (steadyCandle s (61 + j))

theorem features_steady (s : Symbol) (n : ℕ) :
    (consume realNumerics (steady s n)).features = steadyRows s n := by
  induction n with
  | zero => rfl
  | succ n ih =>
    rw [steady_succ, features_consume]
    by_cases hn : 61 ≤ n
    · have hwarm : minBuffer ≤ (buffer (steady s n) (steadyCandle s n)).length :=
        warm_steady_iff.mpr hn
      have hnew : (steadyCandle s n).key ∉
          (consume realNumerics (steady s n)).features.map FeatureRow.key := by
        intro h
        obtain ⟨es, c, hpre, hkey, _⟩ := (mem_keys_features realNumerics _ _).mp h
        refine not_mem_keys_steady s n (List.mem_map.mpr ⟨c, ?_, hkey⟩)
        exact hpre.subset (List.mem_concat_self ..)
      obtain ⟨m, rfl⟩ := Nat.exists_eq_add_of_le hn
      rw [if_pos hwarm, Tables.insertNew_of_not_mem hnew, ih]
      unfold steadyRows
      rw [Nat.add_assoc, Nat.add_sub_cancel_left, Nat.add_sub_cancel_left, List.range_succ,
        List.map_append, List.map_singleton]
    · have hcold : ¬ minBuffer ≤ (buffer (steady s n) (steadyCandle s n)).length :=
        fun h => hn (warm_steady_iff.mp h)
      rw [if_neg hcold, ih]
      unfold steadyRows
      rw [Nat.sub_eq_zero_of_le (by omega), Nat.sub_eq_zero_of_le (by omega)]

theorem length_steadyRows (s : Symbol) (n : ℕ) : (steadyRows s n).length = n - 61 := by
  unfold steadyRows
  rw [List.length_map, List.length_range]

theorem mem_steadyRows {f : FeatureRow ℝ} : f ∈ steadyRows s n ↔
    ∃ i, 61 ≤ i ∧ i < n ∧ f = rowFor realNumerics (steady s i) (steadyCandle s i) := by
  unfold steadyRows
  rw [List.mem_map]
  constructor
  · rintro ⟨j, hj, rfl⟩
    exact ⟨61 + j, Nat.le_add_right _ _, by rw [List.mem_range] at hj; omega, rfl⟩
  · rintro ⟨i, hi, hin, rfl⟩
    obtain ⟨j, rfl⟩ := Nat.exists_eq_add_of_le hi
    exact ⟨j, List.mem_range.mpr (by omega), rfl⟩

end Steady

end PortfolioEngine.Features
