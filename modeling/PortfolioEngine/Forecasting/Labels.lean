import PortfolioEngine.Features.RealNumerics

/-!
# The forward label

`compute_forward_realized_vol` of `forecasting/labels.py`: an index loop over slices of the squared
returns, where the feature `realized_vol` is a vectorised rolling sum.

`forwardLabel_eq_feature`: on closes that are positive or missing, the label at `i` is the feature
at `i + window`, and it is missing where the series does not go that far.
-/

namespace PortfolioEngine.Forecasting

open Recent Features

variable {K : Type*} [Field K] [LinearOrder K]

/-! ## The code -/

/-- `np.sum`. -/
def npSum (xs : Series K) : Flt K := xs.foldl Flt.add (.fin 0)

/-- The squared log returns of the closes. -/
def squaredReturns (P : Numerics K) (close : Series K) : Series K :=
  ((List.zipWith Flt.div close (shift .nan close)).map P.log).map square

/-- The body of the loop: the label from the slice of the next squared returns. -/
def forwardVol (P : Numerics K) (forwardSq : Series K) : Flt K :=
  if forwardSq.any Flt.isNan then .nan else P.sqrt (npSum forwardSq)

/-- `compute_forward_realized_vol`. -/
def computeForwardRealizedVol (P : Numerics K) (close : Series K) (window : ℕ) : Series K :=
  let squared := squaredReturns P close
  (List.range squared.length).map fun i =>
    if i < squared.length - window then forwardVol P ((squared.drop (i + 1)).take window) else .nan

/-! ## Windows of finite and missing values -/

/-- What is used of the logarithm and the square root. -/
structure Elementary (P : Numerics K) : Prop where
  log_fin : ∀ x, 0 < x → ∃ y, P.log (.fin x) = .fin y
  log_nan : P.log .nan = .nan
  sqrt_nan : P.sqrt .nan = .nan

/-- A positive close, or a missing one. -/
def IsClose (x : Flt K) : Prop := x = .nan ∨ ∃ c, 0 < c ∧ x = .fin c

/-- A finite value, or a missing one. -/
def NanOrFin (x : Flt K) : Prop := x = .nan ∨ ∃ c, x = .fin c

omit [LinearOrder K] in
theorem npSum_fin (xs : List K) : npSum (xs.map .fin) = .fin xs.sum := by
  have hfold : ∀ a : K, (xs.map Flt.fin).foldl Flt.add (.fin a) = .fin (a + xs.sum) := by
    induction xs with
    | nil => intro a; simp
    | cons x xs ih =>
      intro a
      rw [List.map_cons, List.foldl_cons, List.sum_cons, ← add_assoc]
      exact ih (a + x)
  rw [npSum, hfold, zero_add]

omit [Field K] [LinearOrder K] in
theorem ofWindow_of_nan (agg : List K → Flt K) {xs : Series K} (h : .nan ∈ xs) :
    ofWindow agg xs = .nan := by
  have hm : xs.mapM Flt.toFin? = none := by
    induction xs with
    | nil => cases h
    | cons x xs ih =>
      rw [List.mapM_cons]
      rcases List.mem_cons.mp h with rfl | h
      · rfl
      · rw [ih h]
        cases x.toFin? <;> rfl
  unfold ofWindow
  rw [hm]

omit [Field K] [LinearOrder K] in
theorem exists_map_fin {xs : Series K} (h : ∀ x ∈ xs, NanOrFin x) (hnan : Flt.nan ∉ xs) :
    ∃ ys : List K, xs = ys.map .fin := by
  induction xs with
  | nil => exact ⟨[], rfl⟩
  | cons x xs ih =>
    obtain ⟨ys, rfl⟩ := ih (fun y hy => h y (List.mem_cons_of_mem x hy))
      fun hc => hnan (List.mem_cons_of_mem x hc)
    rcases h x List.mem_cons_self with rfl | ⟨c, rfl⟩
    · exact absurd List.mem_cons_self hnan
    · exact ⟨c :: ys, rfl⟩

omit [LinearOrder K] in
theorem forwardVol_fin (P : Numerics K) (ys : List K) :
    forwardVol P (ys.map .fin) = P.sqrt (.fin ys.sum) := by
  have hany : ¬ ((ys.map Flt.fin).any Flt.isNan = true) := by
    simp [Flt.isNan]
  unfold forwardVol
  rw [if_neg hany, npSum_fin]

/-- The loop body computes what pandas computes for the window. -/
theorem forwardVol_eq {P : Numerics K} (hP : Elementary P) {xs : Series K}
    (h : ∀ x ∈ xs, NanOrFin x) : forwardVol P xs = P.sqrt (ofWindow sum xs) := by
  by_cases hnan : Flt.nan ∈ xs
  · unfold forwardVol
    rw [if_pos (List.any_eq_true.mpr ⟨_, hnan, rfl⟩), ofWindow_of_nan _ hnan, hP.sqrt_nan]
  · obtain ⟨ys, rfl⟩ := exists_map_fin h hnan
    rw [forwardVol_fin, ofWindow_fin]
    rfl

/-! ## The squared returns -/

section Returns

variable {P : Numerics K} {close : Series K}

theorem squaredReturns_eq : squaredReturns P close = (logReturns P close).map square := rfl

theorem length_squaredReturns : (squaredReturns P close).length = close.length := by
  rw [squaredReturns_eq, List.length_map, length_logReturns]

theorem isClose_div [IsStrictOrderedRing K] {x y : Flt K} (hx : IsClose x) (hy : IsClose y) :
    IsClose (x.div y) := by
  rcases hx with rfl | ⟨c, hc, rfl⟩
  · exact Or.inl rfl
  rcases hy with rfl | ⟨d, hd, rfl⟩
  · exact Or.inl rfl
  · rw [Flt.div_fin hd.ne']
    exact Or.inr ⟨c / d, div_pos hc hd, rfl⟩

theorem isClose_ratios [IsStrictOrderedRing K] {close : Series K}
    (hclose : ∀ x ∈ close, IsClose x) :
    ∀ x ∈ List.zipWith Flt.div close (shift .nan close), IsClose x := by
  intro x hx
  rw [← List.map_uncurry_zip_eq_zipWith] at hx
  obtain ⟨⟨a, b⟩, hab, rfl⟩ := List.mem_map.mp hx
  obtain ⟨ha, hb⟩ := List.of_mem_zip hab
  have hb' : IsClose b := by
    rcases List.mem_cons.mp (List.mem_of_mem_take hb) with rfl | hb
    · exact Or.inl rfl
    · exact hclose b hb
  exact isClose_div (hclose a ha) hb'

theorem nanOrFin_square_log (hP : Elementary P) {x : Flt K} (hx : IsClose x) :
    NanOrFin (square (P.log x)) := by
  rcases hx with rfl | ⟨c, hc, rfl⟩
  · rw [hP.log_nan]
    exact Or.inl rfl
  · obtain ⟨y, hy⟩ := hP.log_fin c hc
    rw [hy]
    exact Or.inr ⟨y * y, rfl⟩

theorem nanOrFin_squaredReturns [IsStrictOrderedRing K] (hP : Elementary P)
    (hclose : ∀ x ∈ close, IsClose x) : ∀ x ∈ squaredReturns P close, NanOrFin x := by
  intro x hx
  obtain ⟨_, hlog, rfl⟩ := List.mem_map.mp hx
  obtain ⟨z, hz, rfl⟩ := List.mem_map.mp hlog
  exact nanOrFin_square_log hP (isClose_ratios hclose z hz)

end Returns

/-! ## The label is the feature, shifted -/

omit [Field K] [LinearOrder K] in
theorem getElem?_rolled (agg : List K → Flt K) {s : Series K} {w i : ℕ} (hi : i + w < s.length) :
    (rolled w agg s)[i + w]? = some (ofWindow agg ((s.drop (i + 1)).take w)) := by
  have hwindow : (s.take (i + w + 1)).rtake w = (s.drop (i + 1)).take w := by
    rw [List.rtake, List.length_take, min_eq_left hi, show i + w + 1 - w = i + 1 by omega,
      List.drop_take, show i + w + 1 - (i + 1) = w by omega]
  unfold rolled rolling
  rw [List.getElem?_map, List.getElem?_range hi, Option.map_some, if_neg (by omega), hwindow]

/-- **The forward label is the backward feature, shifted.** -/
theorem forwardLabel_eq_feature [IsStrictOrderedRing K] {P : Numerics K} (hP : Elementary P)
    {close : Series K} (hclose : ∀ x ∈ close, IsClose x) (w : ℕ) {i : ℕ} (hi : i < close.length) :
    (i + w < close.length → (computeForwardRealizedVol P close w)[i]? =
      (realizedVol P (logReturns P close) w)[i + w]?) ∧
    (close.length ≤ i + w → (computeForwardRealizedVol P close w)[i]? = some .nan) := by
  have hlen : (squaredReturns P close).length = close.length := length_squaredReturns
  have hlabel : (computeForwardRealizedVol P close w)[i]? =
      some (if i < close.length - w then
        forwardVol P (((squaredReturns P close).drop (i + 1)).take w) else .nan) := by
    unfold computeForwardRealizedVol
    dsimp only
    rw [List.getElem?_map, List.getElem?_range (hlen ▸ hi), Option.map_some, hlen]
  refine ⟨fun hw => ?_, fun hw => ?_⟩
  · have hwindow : ∀ x ∈ ((squaredReturns P close).drop (i + 1)).take w, NanOrFin x := fun x hx =>
      nanOrFin_squaredReturns hP hclose x (List.mem_of_mem_drop (List.mem_of_mem_take hx))
    unfold realizedVol
    rw [hlabel, if_pos (by omega), forwardVol_eq hP hwindow, ← squaredReturns_eq,
      List.getElem?_map, getElem?_rolled sum (hlen ▸ hw), Option.map_some]
  · rw [hlabel, if_neg (by omega)]

theorem elementary_realNumerics : Elementary realNumerics where
  log_fin x hx := ⟨Real.log x, if_pos hx⟩
  log_nan := rfl
  sqrt_nan := rfl

/-- Three closes with a missing one between them. -/
theorem forwardLabel_eq_feature_missing :
    (0 + 1 < 3 → (computeForwardRealizedVol realNumerics [.fin 1, .nan, .fin 2] 1)[0]? =
      (realizedVol realNumerics (logReturns realNumerics [.fin 1, .nan, .fin 2]) 1)[0 + 1]?) ∧
    (3 ≤ 0 + 1 →
      (computeForwardRealizedVol realNumerics [.fin 1, .nan, .fin 2] 1)[0]? = some .nan) := by
  have hclose : ∀ x ∈ [Flt.fin (1 : ℝ), .nan, .fin 2], IsClose x := by
    simp only [List.forall_mem_cons]
    exact ⟨Or.inr ⟨1, one_pos, rfl⟩, Or.inl rfl, Or.inr ⟨2, two_pos, rfl⟩, by simp⟩
  have hi : 0 < [Flt.fin (1 : ℝ), .nan, .fin 2].length := Nat.zero_lt_succ _
  exact forwardLabel_eq_feature elementary_realNumerics hclose 1 hi

end PortfolioEngine.Forecasting
