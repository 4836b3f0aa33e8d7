import Mathlib.Algebra.Order.BigOperators.Group.List
import PortfolioEngine.Features.RealNumerics
import PortfolioEngine.Forecasting.RealizedVol

/-!
# The label trained on and the label evaluated on

`train_models` labels the closes of the join of `features` and `prices`, `_backfill_realized_vol`
the closes of `prices`. Both look `FORWARD_WINDOW` rows ahead, so they look at different closes
where one of these rows has no feature.

`labels_agree_iff`: for given times of the rows, the two labels of a time are equal whatever the
closes are, if and only if none of the rows that the evaluation looks at lacks a feature.
-/

namespace PortfolioEngine.Forecasting

open Features

variable {K : Type*} [Field K] [LinearOrder K]

/-! ## The training path -/

/-- `ROLLING_WINDOW_DAYS`. -/
def rollingWindowDays : ℕ := 60

/-- `fetch_training_data`: the features with the closes they are joined with. -/
def fetchTrainingData (features : List (FeatureRow K)) (prices : List (PriceRow (Flt K)))
    (symbol : Symbol) (windowDays : ℕ) (now : ℤ) : List (FeatureRow K × Flt K) :=
  Backlog.ordered (fun r => r.1.time) (prices.flatMap fun p =>
    (features.filter fun f =>
      f.key = p.key ∧ f.symbol = symbol ∧ now - windowDays * day ≤ f.time).map
        fun f => (f, p.close))

/-- `target_realized_vol` of the row of `t` in `train_models`, unless it is missing. -/
def targetAt (P : Numerics K) (features : List (FeatureRow K)) (prices : List (PriceRow (Flt K)))
    (symbol : Symbol) (now t : ℤ) : Option (Flt K) :=
  labelAt P ((fetchTrainingData features prices symbol rollingWindowDays now).map
    fun r => (r.1.time, r.2)) t

section Training

variable {features : List (FeatureRow K)} {prices : List (PriceRow (Flt K))} {symbol : Symbol}
  {now t : ℤ}

omit [Field K] [LinearOrder K] in
theorem trainingCloses_eq (h : (features.map FeatureRow.key).Nodup) (windowDays : ℕ) :
    (fetchTrainingData features prices symbol windowDays now).map (fun r => (r.1.time, r.2)) =
      timedCloses (prices.filter fun p =>
        p.symbol = symbol ∧ now - windowDays * day ≤ p.time ∧
          p.key ∈ features.map FeatureRow.key) := by
  unfold fetchTrainingData timedCloses
  rw [Backlog.map_ordered _ Prod.fst (fun r : FeatureRow K × Flt K => (r.1.time, r.2)) fun _ => rfl]
  congr 1
  rw [List.map_flatMap]
  induction prices with
  | nil => rfl
  | cons p prices ih =>
    rw [List.flatMap_cons, ih, List.map_map]
    by_cases hp : p.symbol = symbol ∧ now - windowDays * day ≤ p.time ∧
        p.key ∈ features.map FeatureRow.key
    · obtain ⟨hsym, hwindow, hmem⟩ := hp
      obtain ⟨f, hf, hkey⟩ := List.mem_map.mp hmem
      -- the key is unique in `features`, so the join has one row for the price
      have hjoin : (features.filter fun g =>
          g.key = p.key ∧ g.symbol = symbol ∧ now - windowDays * day ≤ g.time) = [f] := by
        rw [← Tables.filter_key_eq h hf]
        refine List.filter_congr fun g _ => decide_eq_decide.mpr ?_
        rw [hkey]
        refine ⟨fun hg => hg.1, fun hg => ⟨hg, ?_⟩⟩
        obtain ⟨hgs, hgt⟩ := Prod.mk.inj hg
        exact ⟨hgs.trans hsym, hgt ▸ hwindow⟩
      rw [hjoin, List.filter_cons_of_pos (by simp [hsym, hwindow, hmem])]
      have htime : f.time = p.time := (Prod.mk.inj hkey).2
      simp [htime]
    · rw [List.filter_cons_of_neg (by simpa using hp), List.filter_eq_nil_iff.mpr]
      · rfl
      · intro g hg hc
        obtain ⟨hkey, hsym, hwindow⟩ := of_decide_eq_true hc
        obtain ⟨hgs, hgt⟩ := Prod.mk.inj hkey
        exact hp ⟨hgs ▸ hsym, hgt ▸ hwindow, hkey ▸ List.mem_map_of_mem hg⟩

end Training

/-! ## The rows that the labels look at -/

/-- The times from `t` on of the rows of `prices` with the given keys. -/
def timesAhead (keys : List (Symbol × ℤ)) (symbol : Symbol) (t : ℤ) : List ℤ :=
  Backlog.ordered id ((keys.filter fun k => k.1 = symbol ∧ t ≤ k.2).map Prod.snd)

/-- The rows from `t` on that a label of `t` looks at have a feature. -/
def Covered (features : List (FeatureRow K)) (keys : List (Symbol × ℤ)) (symbol : Symbol)
    (t : ℤ) : Prop :=
  ∀ time ∈ (timesAhead keys symbol t).take (forwardWindow + 1),
    (symbol, time) ∈ features.map FeatureRow.key

/-- In the training window, `t` has a feature and `FORWARD_WINDOW` later rows with a feature. -/
structure HasTarget (features : List (FeatureRow K)) (keys : List (Symbol × ℤ)) (symbol : Symbol)
    (now t : ℤ) : Prop where
  window : now - rollingWindowDays * day ≤ t
  feature : (symbol, t) ∈ features.map FeatureRow.key
  price : (symbol, t) ∈ keys
  later : forwardWindow < ((timesAhead keys symbol t).filter fun time =>
    (symbol, time) ∈ features.map FeatureRow.key).length

section Rows

variable {features : List (FeatureRow K)} {prices : List (PriceRow (Flt K))} {symbol : Symbol}
  {now t : ℤ}

/-- The closes from `t` on. -/
def closesAhead (prices : List (PriceRow (Flt K))) (symbol : Symbol) (t : ℤ) : List (ℤ × Flt K) :=
  timedCloses (prices.filter fun r => r.symbol = symbol ∧ t ≤ r.time)

/-- Those of the rows with a feature. -/
def featuredAhead (features : List (FeatureRow K)) (prices : List (PriceRow (Flt K)))
    (symbol : Symbol) (t : ℤ) : List (ℤ × Flt K) :=
  (closesAhead prices symbol t).filter fun r => (features.map FeatureRow.key).contains (symbol, r.1)

omit [Field K] [LinearOrder K] in
theorem featuredAhead_eq (features : List (FeatureRow K)) (prices : List (PriceRow (Flt K)))
    (symbol : Symbol) (t : ℤ) :
    featuredAhead features prices symbol t =
      (closesAhead prices symbol t).filter fun r =>
        (symbol, r.1) ∈ features.map FeatureRow.key := by
  unfold featuredAhead
  simp only [List.contains_eq_mem]

omit [Field K] [LinearOrder K] in
theorem times_closesAhead :
    (closesAhead prices symbol t).map Prod.fst =
      timesAhead (prices.map PriceRow.key) symbol t := by
  unfold closesAhead timedCloses timesAhead
  rw [Backlog.map_ordered Prod.fst id Prod.fst fun _ => rfl, List.filter_map, List.map_map,
    List.map_map]
  rfl

theorem labelAt_prices (P : Numerics K) (h : (prices.map PriceRow.key).Nodup) :
    labelAt P (timedCloses (prices.filter fun r => r.symbol = symbol)) t =
      aheadLabel P t (closesAhead prices symbol t) := by
  rw [labelAt_timedCloses P h fun r _ hr => of_decide_eq_true hr]
  unfold closesAhead
  simp only [decide_eq_true_eq]

theorem targetAt_eq (P : Numerics K) (h : (prices.map PriceRow.key).Nodup)
    (hfeatures : (features.map FeatureRow.key).Nodup)
    (hwindow : now - rollingWindowDays * day ≤ t) :
    targetAt P features prices symbol now t =
      aheadLabel P t (featuredAhead features prices symbol t) := by
  unfold targetAt
  rw [featuredAhead_eq, closesAhead, trainingCloses_eq hfeatures,
    labelAt_timedCloses P h fun r _ hr => (of_decide_eq_true hr).1]
  congr 1
  have hp : ∀ r ∈ prices, decide (r.symbol = symbol ∧ t ≤ r.time) → r.symbol = symbol :=
    fun r _ hr => (of_decide_eq_true hr).1
  unfold timedCloses
  rw [Backlog.filter_ordered (nodup_times h hp), List.filter_map, List.filter_filter]
  congr 2
  refine List.filter_congr fun r _ => Bool.eq_iff_iff.mpr ?_
  simp only [decide_eq_true_eq, Bool.and_eq_true, Function.comp_apply]
  have hkey : r.symbol = symbol → r.key = (symbol, r.time) := fun hsym => Prod.ext hsym rfl
  constructor
  · rintro ⟨⟨hsym, _, hmem⟩, ht⟩
    exact ⟨hkey hsym ▸ hmem, hsym, ht⟩
  · rintro ⟨hmem, hsym, ht⟩
    exact ⟨⟨hsym, hwindow.trans ht, (hkey hsym).symm ▸ hmem⟩, ht⟩

theorem targetAt_of_lt (P : Numerics K) (h : (prices.map PriceRow.key).Nodup)
    (hfeatures : (features.map FeatureRow.key).Nodup)
    (hwindow : t < now - rollingWindowDays * day) :
    targetAt P features prices symbol now t = none := by
  unfold targetAt
  rw [trainingCloses_eq hfeatures,
    labelAt_timedCloses P h fun r _ hr => (of_decide_eq_true hr).1]
  refine if_neg fun hc => ?_
  obtain ⟨r, hr, rfl⟩ := List.mem_map.mp hc.1
  obtain ⟨p, hp, rfl⟩ := List.mem_map.mp ((Backlog.mem_ordered _).mp hr)
  have hp := of_decide_eq_true (of_decide_eq_true (List.mem_filter.mp hp).2).1
  exact absurd hp.2.1 (not_le.mpr hwindow)

omit [Field K] [LinearOrder K] in
theorem times_featuredAhead : (featuredAhead features prices symbol t).map Prod.fst =
    (timesAhead (prices.map PriceRow.key) symbol t).filter fun time =>
      (symbol, time) ∈ features.map FeatureRow.key := by
  rw [featuredAhead_eq, ← times_closesAhead, List.filter_map]
  rfl

theorem mem_timesAhead {keys : List (Symbol × ℤ)} {time : ℤ} :
    time ∈ timesAhead keys symbol t ↔ (symbol, time) ∈ keys ∧ t ≤ time := by
  unfold timesAhead
  rw [Backlog.mem_ordered, List.mem_map]
  constructor
  · rintro ⟨⟨s, time⟩, hk, rfl⟩
    obtain ⟨hmem, hk⟩ := List.mem_filter.mp hk
    obtain ⟨rfl, ht⟩ := of_decide_eq_true hk
    exact ⟨hmem, ht⟩
  · rintro ⟨hmem, ht⟩
    exact ⟨_, List.mem_filter.mpr ⟨hmem, decide_eq_true ⟨rfl, ht⟩⟩, rfl⟩

/-- A target is assigned only where `t` has one, whatever the closes are. -/
theorem hasTarget_of_targetAt {P : Numerics K} (h : (prices.map PriceRow.key).Nodup)
    (hfeatures : (features.map FeatureRow.key).Nodup) {v : Flt K}
    (hv : targetAt P features prices symbol now t = some v) :
    HasTarget features (prices.map PriceRow.key) symbol now t := by
  have hwindow : now - rollingWindowDays * day ≤ t := by
    by_contra hlt
    rw [targetAt_of_lt P h hfeatures (not_le.mp hlt)] at hv
    cases hv
  rw [targetAt_eq P h hfeatures hwindow] at hv
  unfold aheadLabel at hv
  split_ifs at hv with hc
  obtain ⟨hmem, hlength⟩ := hc
  rw [times_featuredAhead, List.mem_filter, mem_timesAhead] at hmem
  rw [← List.length_map Prod.fst, times_featuredAhead] at hlength
  exact ⟨hwindow, of_decide_eq_true hmem.2, hmem.1.1, hlength⟩

omit [Field K] [LinearOrder K] in
theorem take_filter_of_forall {α : Type*} {l : List α} {p : α → Bool} {k : ℕ}
    (h : ∀ x ∈ l.take k, p x) : (l.filter p).take k = l.take k := by
  have hsplit : l.filter p = l.take k ++ (l.drop k).filter p := by
    conv_lhs => rw [← List.take_append_drop k l, List.filter_append, List.filter_eq_self.mpr h]
  rcases Nat.le_or_ge k l.length with hk | hk
  · rw [hsplit, List.take_left' (by rw [List.length_take]; omega)]
  · rw [hsplit, List.drop_of_length_le hk, List.filter_nil, List.append_nil, List.take_take,
      Nat.min_self]

/-- Where all rows have a feature, the two labels look at the same closes. -/
theorem labels_agree (P : Numerics K)
    (hcovered : Covered features (prices.map PriceRow.key) symbol t) {v w : Flt K}
    (hv : aheadLabel P t (featuredAhead features prices symbol t) = some v)
    (hw : aheadLabel P t (closesAhead prices symbol t) = some w) : v = w := by
  have htake : (featuredAhead features prices symbol t).take (forwardWindow + 1) =
      (closesAhead prices symbol t).take (forwardWindow + 1) := by
    rw [featuredAhead_eq]
    refine take_filter_of_forall fun r hr => decide_eq_true (hcovered r.1 ?_)
    rw [← times_closesAhead, ← List.map_take]
    exact List.mem_map_of_mem hr
  unfold aheadLabel at hv hw
  split_ifs at hv hw
  rw [← List.map_take, htake, List.map_take] at hv
  exact Option.some.inj (hv.symm.trans hw)

end Rows

/-! ## Closes that tell the labels apart -/

/-- What is used of the logarithm and the square root. -/
structure Separates (P : Numerics K) : Prop where
  log_one : P.log (.fin 1) = .fin 0
  log_two : ∃ a, a ≠ 0 ∧ P.log (.fin 2) = .fin a
  log_half : ∃ b, P.log (.fin (1 / 2)) = .fin b
  sqrt_zero : P.sqrt (.fin 0) = .fin 0
  sqrt_pos : ∀ x, 0 < x → ∃ y, 0 < y ∧ P.sqrt (.fin x) = .fin y

section Windows

variable {P : Numerics K}

theorem windowVol_ones (hP : Separates P) (n : ℕ) :
    windowVol P (List.replicate n (.fin 1)) = .fin 0 := by
  have hone : (Flt.fin (1 : K)).div (.fin 1) = .fin 1 := by
    rw [Flt.div_fin one_ne_zero, div_one]
  have hsquare : square (P.log (.fin (1 : K))) = .fin 0 := by
    rw [hP.log_one]
    exact congrArg Flt.fin (mul_zero 0)
  have hreturns : (List.zipWith Flt.div (List.replicate n (Flt.fin (1 : K))).tail
      (List.replicate n (.fin 1))).map (fun x => square (P.log x)) =
        (List.replicate (n - 1) (0 : K)).map .fin := by
    rw [List.tail_replicate, List.zipWith_replicate, List.map_replicate, List.map_replicate, hone,
      hsquare, Nat.min_eq_left (Nat.sub_le n 1)]
  unfold windowVol
  rw [hreturns, forwardVol_fin, List.sum_replicate, smul_zero, hP.sqrt_zero]

omit [Field K] [LinearOrder K] in
theorem mem_zipWith_tail {α β : Type*} (f : α → α → β) (before after : List α) (x y : α) :
    f y x ∈ List.zipWith f (before ++ x :: y :: after).tail (before ++ x :: y :: after) := by
  induction before with
  | nil => exact List.mem_cons_self
  | cons z before ih =>
    cases before with
    | nil => exact List.mem_cons_of_mem _ ih
    | cons z' before => exact List.mem_cons_of_mem _ ih

theorem square_log_ratio [IsStrictOrderedRing K] (hP : Separates P) {u v : Flt K}
    (hu : u = .fin 1 ∨ u = .fin 2) (hv : v = .fin 1 ∨ v = .fin 2) :
    ∃ y, 0 ≤ y ∧ square (P.log (u.div v)) = .fin y := by
  obtain ⟨a, _, hlog2⟩ := hP.log_two
  obtain ⟨b, hlogHalf⟩ := hP.log_half
  have hfin : ∀ {x : Flt K} {c : K}, P.log x = .fin c → ∃ y, 0 ≤ y ∧ square (P.log x) = .fin y := by
    intro x c hx
    rw [hx]
    exact ⟨c * c, mul_self_nonneg c, rfl⟩
  rcases hv with rfl | rfl
  · rcases hu with rfl | rfl
    · rw [Flt.div_fin one_ne_zero, div_one]
      exact hfin hP.log_one
    · rw [Flt.div_fin one_ne_zero, div_one]
      exact hfin hlog2
  · rcases hu with rfl | rfl
    · rw [Flt.div_fin two_ne_zero]
      exact hfin hlogHalf
    · rw [Flt.div_fin two_ne_zero, div_self two_ne_zero]
      exact hfin hP.log_one

theorem windowVol_step [IsStrictOrderedRing K] (hP : Separates P) {before after : List K}
    (h : ∀ c ∈ before ++ 1 :: 2 :: after, c = 1 ∨ c = 2) :
    ∃ y, 0 < y ∧ windowVol P ((before ++ 1 :: 2 :: after).map .fin) = .fin y := by
  obtain ⟨a, ha, hlog2⟩ := hP.log_two
  set closes := (before ++ 1 :: 2 :: after).map Flt.fin with hcloses
  set squares := (List.zipWith Flt.div closes.tail closes).map
    fun x => square (P.log x) with hsquares
  have hunit : ∀ x ∈ closes, x = .fin 1 ∨ x = .fin 2 := by
    intro x hx
    obtain ⟨c, hc, rfl⟩ := List.mem_map.mp hx
    exact (h c hc).imp (congrArg _) (congrArg _)
  have hsquare : ∀ x ∈ squares, ∃ y, 0 ≤ y ∧ x = .fin y := by
    intro x hx
    obtain ⟨z, hz, rfl⟩ := List.mem_map.mp hx
    rw [← List.map_uncurry_zip_eq_zipWith] at hz
    obtain ⟨⟨u, v⟩, huv, rfl⟩ := List.mem_map.mp hz
    obtain ⟨hu, hv⟩ := List.of_mem_zip huv
    exact square_log_ratio hP (hunit u (List.mem_of_mem_tail hu)) (hunit v hv)
  have hstep : Flt.fin (a * a) ∈ squares := by
    refine List.mem_map.mpr ⟨(Flt.fin 2).div (.fin 1), ?_, ?_⟩
    · rw [hcloses, List.map_append]
      exact mem_zipWith_tail Flt.div _ _ _ _
    · rw [Flt.div_fin one_ne_zero, div_one, hlog2]
      rfl
  obtain ⟨ys, hys⟩ : ∃ ys : List K, squares = ys.map .fin := by
    refine exists_map_fin (fun x hx => ?_) fun hc => ?_
    · obtain ⟨y, _, hy⟩ := hsquare x hx
      exact Or.inr ⟨y, hy⟩
    · obtain ⟨y, _, hy⟩ := hsquare _ hc
      cases hy
  have hnonneg : ∀ y ∈ ys, 0 ≤ y := by
    intro y hy
    obtain ⟨y', hy', he⟩ := hsquare (.fin y) (hys ▸ List.mem_map_of_mem hy)
    rw [Flt.fin.inj he]
    exact hy'
  have hmem : a * a ∈ ys := by
    rw [hys] at hstep
    obtain ⟨y, hy, he⟩ := List.mem_map.mp hstep
    rwa [← Flt.fin.inj he]
  have hsum : 0 < ys.sum :=
    (mul_self_pos.mpr ha).trans_le (List.single_le_sum hnonneg (a * a) hmem)
  obtain ⟨y, hy, hsqrt⟩ := hP.sqrt_pos ys.sum hsum
  refine ⟨y, hy, ?_⟩
  unfold windowVol
  rw [← hsquares, hys, forwardVol_fin, hsqrt]

end Windows

/-! ## The two labels where a row has no feature -/

section Spike

/-- A table with the given keys in which all closes are 1 but those of the time `hole`. -/
def spike (keys : List (Symbol × ℤ)) (hole : ℤ) : List (PriceRow (Flt K)) :=
  keys.map fun k =>
    { time := k.2, symbol := k.1, opening := .fin 1, high := .fin (1 + 1), low := .fin 1,
      close := .fin (if k.2 = hole then 1 + 1 else 1), volume := .fin 1 }

variable {features : List (FeatureRow K)} {keys : List (Symbol × ℤ)} {symbol : Symbol}
  {now t hole : ℤ}

omit [LinearOrder K] in
theorem keys_spike : (spike keys hole : List (PriceRow (Flt K))).map PriceRow.key = keys := by
  unfold spike
  rw [List.map_map]
  exact List.map_id' keys

omit [LinearOrder K] in
theorem nodup_spike (h : keys.Nodup) :
    ((spike keys hole : List (PriceRow (Flt K))).map PriceRow.key).Nodup := by
  rw [keys_spike]
  exact h

omit [LinearOrder K] in
theorem closesAhead_spike :
    closesAhead (spike keys hole : List (PriceRow (Flt K))) symbol t =
      (timesAhead keys symbol t).map fun time => (time, .fin (if time = hole then 2 else 1)) := by
  unfold closesAhead timedCloses timesAhead spike
  simp only [one_add_one_eq_two]
  rw [Backlog.map_ordered id Prod.fst _ fun _ => rfl, List.filter_map, List.map_map, List.map_map]
  rfl

theorem strict_timesAhead (symbol : Symbol) (t : ℤ) (hkeys : keys.Nodup) :
    (timesAhead keys symbol t).Pairwise fun x y => x < y := by
  refine Backlog.strict_ordered ?_
  rw [List.map_id']
  refine List.Nodup.map_on (fun x hx y hy hxy => ?_) (hkeys.filter _)
  have hx := (of_decide_eq_true (List.mem_filter.mp hx).2).1
  have hy := (of_decide_eq_true (List.mem_filter.mp hy).2).1
  exact Prod.ext (hx.trans hy.symm) hxy

theorem targetAt_spike {P : Numerics K} (hP : Separates P) (hkeys : keys.Nodup)
    (hfeatures : (features.map FeatureRow.key).Nodup)
    (htarget : HasTarget features keys symbol now t)
    (hnone : (symbol, hole) ∉ features.map FeatureRow.key) :
    targetAt P features (spike keys hole) symbol now t = some (.fin 0) := by
  have hprices : ((spike keys hole : List (PriceRow (Flt K))).map PriceRow.key).Nodup :=
    nodup_spike hkeys
  have hlength : forwardWindow <
      (featuredAhead features (spike keys hole) symbol t).length := by
    rw [← List.length_map Prod.fst, times_featuredAhead, keys_spike]
    exact htarget.later
  have hmem : t ∈ (featuredAhead features (spike keys hole) symbol t).map Prod.fst := by
    rw [times_featuredAhead, keys_spike, List.mem_filter, mem_timesAhead]
    exact ⟨⟨htarget.price, le_rfl⟩, decide_eq_true htarget.feature⟩
  have hones : ((featuredAhead features (spike keys hole) symbol t).map Prod.snd).take
      (forwardWindow + 1) = List.replicate (forwardWindow + 1) (.fin 1) := by
    refine List.eq_replicate_iff.mpr ⟨?_, fun x hx => ?_⟩
    · rw [List.length_take, List.length_map]
      omega
    · obtain ⟨r, hr, rfl⟩ := List.mem_map.mp (List.mem_of_mem_take hx)
      rw [featuredAhead_eq] at hr
      obtain ⟨hr, hfeature⟩ := List.mem_filter.mp hr
      rw [closesAhead_spike] at hr
      obtain ⟨time, _, rfl⟩ := List.mem_map.mp hr
      have hne : time ≠ hole := fun hc => hnone (hc ▸ of_decide_eq_true hfeature)
      dsimp only
      rw [if_neg hne]
  rw [targetAt_eq P hprices hfeatures htarget.window]
  unfold aheadLabel
  rw [if_pos ⟨hmem, hlength⟩, hones, windowVol_ones hP]
  rfl

omit [Field K] [LinearOrder K] in
/-- The hole comes after another row. -/
theorem exists_before_hole (hkeys : keys.Nodup) (ht : (symbol, t) ∈ keys) (hne : t ≠ hole) {k : ℕ}
    (hhole : hole ∈ (timesAhead keys symbol t).take k) :
    ∃ before time after, (timesAhead keys symbol t).take k = before ++ time :: hole :: after ∧
      time ≠ hole := by
  have hstrict := strict_timesAhead symbol t hkeys
  have hmem : t ∈ timesAhead keys symbol t := mem_timesAhead.mpr ⟨ht, le_rfl⟩
  have hle : t ≤ hole := (mem_timesAhead.mp (List.mem_of_mem_take hhole)).2
  obtain ⟨before, after, hsplit⟩ := List.append_of_mem hhole
  rw [← List.take_append_drop k (timesAhead keys symbol t), hsplit] at hstrict hmem
  rcases List.eq_nil_or_concat' before with rfl | ⟨before, time, rfl⟩
  · -- then `hole` is the first of the times, before `t`
    rcases List.mem_cons.mp hmem with rfl | hmem
    · exact absurd rfl hne
    · exact absurd ((List.pairwise_cons.mp hstrict).1 t hmem) (not_lt.mpr hle)
  · refine ⟨before, time, after, by rw [hsplit]; simp, ?_⟩
    have hlt := (List.pairwise_append.mp (List.pairwise_append.mp hstrict).1).2.2
    exact (hlt time (by simp) hole List.mem_cons_self).ne

theorem labelAt_spike [IsStrictOrderedRing K] {P : Numerics K} (hP : Separates P)
    (hkeys : keys.Nodup) (htarget : HasTarget features keys symbol now t)
    (hhole : hole ∈ (timesAhead keys symbol t).take (forwardWindow + 1))
    (hnone : (symbol, hole) ∉ features.map FeatureRow.key) :
    ∃ y, 0 < y ∧ labelAt P (timedCloses ((spike keys hole).filter fun r => r.symbol = symbol)) t =
      some (.fin y) := by
  have hprices : ((spike keys hole : List (PriceRow (Flt K))).map PriceRow.key).Nodup :=
    nodup_spike hkeys
  have hlength : forwardWindow < (closesAhead (spike keys hole : List (PriceRow (Flt K)))
      symbol t).length := by
    rw [closesAhead_spike, List.length_map]
    exact htarget.later.trans_le (List.length_filter_le _ _)
  have hmem : t ∈ (closesAhead (spike keys hole : List (PriceRow (Flt K)))
      symbol t).map Prod.fst := by
    rw [times_closesAhead, keys_spike, mem_timesAhead]
    exact ⟨htarget.price, le_rfl⟩
  have hne : t ≠ hole := fun hc => hnone (hc ▸ htarget.feature)
  -- the hole is not at `t`, so a close comes before it in the window and the price steps up
  obtain ⟨before, time, after, hsplit, htime⟩ := exists_before_hole hkeys htarget.price hne hhole
  set close : ℤ → K := fun time => if time = hole then 2 else 1 with hclose
  have hcloses : ((closesAhead (spike keys hole : List (PriceRow (Flt K))) symbol t).map
      Prod.snd).take (forwardWindow + 1) =
        (before.map close ++ 1 :: 2 :: after.map close).map .fin := by
    rw [closesAhead_spike, List.map_map, ← List.map_take, hsplit, List.map_append]
    simp [hclose, htime, Function.comp_def]
  have hunit : ∀ c ∈ before.map close ++ 1 :: 2 :: after.map close, c = 1 ∨ c = 2 := by
    have hvalue : ∀ time, close time = 1 ∨ close time = 2 := fun time => (ite_eq_or_eq _ _ _).symm
    simp only [List.mem_append, List.mem_cons, List.mem_map]
    rintro c (⟨time, _, rfl⟩ | rfl | rfl | ⟨time, _, rfl⟩)
    · exact hvalue time
    · exact Or.inl rfl
    · exact Or.inr rfl
    · exact hvalue time
  obtain ⟨y, hy, hvol⟩ := windowVol_step hP hunit
  refine ⟨y, hy, ?_⟩
  rw [labelAt_prices P hprices]
  unfold aheadLabel
  rw [if_pos ⟨hmem, hlength⟩, hcloses, hvol]
  rfl

end Spike

/-- **The two labels.** For rows with the given keys, the target that the training assigns to `t`
and the realized volatility that the backfill fills in for `t` are equal whatever the closes are, if
and only if there is no target, nothing is due, or none of the rows of `prices` that the label
looks at lacks a feature. -/
theorem labels_agree_iff [IsStrictOrderedRing K] {P : Numerics K} (hP : Separates P)
    {features : List (FeatureRow K)} {keys : List (Symbol × ℤ)} (hkeys : keys.Nodup)
    (hfeatures : (features.map FeatureRow.key).Nodup) (forecasts : List (ForecastRow K))
    (symbol : Symbol) (trainNow evalNow t : ℤ) :
    (∀ prices : List (PriceRow (Flt K)), prices.map PriceRow.key = keys → ∀ v w,
        targetAt P features prices symbol trainNow t = some v →
        Fills P symbol prices evalNow forecasts t w → v = w) ↔
      (HasTarget features keys symbol trainNow t →
        t ∈ fetchForecastsMissingRealized forecasts symbol forwardWindow evalNow →
        Covered features keys symbol t) := by
  constructor
  · intro hagree htarget hmissing hole hhole
    by_contra hnone
    obtain ⟨y, hy, hlabel⟩ := labelAt_spike hP hkeys htarget hhole hnone
    have hprices : ((spike keys hole : List (PriceRow (Flt K))).map PriceRow.key).Nodup :=
      nodup_spike hkeys
    have heq := hagree (spike keys hole) keys_spike _ _
      (targetAt_spike hP hkeys hfeatures htarget hnone) ((fills_iff hprices).mpr ⟨hmissing, hlabel⟩)
    exact hy.ne (Flt.fin.inj heq)
  · rintro hcovered prices rfl v w hv hw
    have htarget := hasTarget_of_targetAt hkeys hfeatures hv
    obtain ⟨hmissing, hlabel⟩ := (fills_iff hkeys).mp hw
    rw [targetAt_eq P hkeys hfeatures htarget.window] at hv
    rw [labelAt_prices P hkeys] at hlabel
    exact labels_agree P (hcovered htarget hmissing) hv hlabel

/-! Seven minutes of candles, the second of which has no features. -/

theorem separates_realNumerics : Separates realNumerics where
  log_one := by simp [realNumerics]
  log_two := ⟨Real.log 2, (Real.log_pos one_lt_two).ne', if_pos two_pos⟩
  log_half := ⟨Real.log (1 / 2), if_pos one_half_pos⟩
  sqrt_zero := by simp [realNumerics]
  sqrt_pos x hx := ⟨Real.sqrt x, Real.sqrt_pos.mpr hx, if_pos hx.le⟩

def gapKeys : List (Symbol × ℤ) :=
  [0, 1, 2, 3, 4, 5, 6].map fun i => ("BTCUSDT", i * minute)

noncomputable def gapFeatures : List (FeatureRow ℝ) :=
  [0, 2, 3, 4, 5, 6].map fun i =>
    ⟨i * minute, "BTCUSDT", List.replicate featureCols.length (some (.fin 0))⟩

noncomputable def gapForecasts : List (ForecastRow ℝ) :=
  [⟨0, "BTCUSDT", some (.fin 1), some (.fin 1), none⟩]

theorem keys_gapFeatures : gapFeatures.map FeatureRow.key =
    [0, 2, 3, 4, 5, 6].map fun i => ("BTCUSDT", i * minute) := rfl

theorem hasTarget_gap : HasTarget gapFeatures gapKeys "BTCUSDT" (6 * minute) 0 where
  window := by decide
  feature := by rw [keys_gapFeatures]; decide
  price := by decide
  later := by simp only [keys_gapFeatures]; decide

theorem missing_gap :
    0 ∈ fetchForecastsMissingRealized gapForecasts "BTCUSDT" forwardWindow (6 * minute) :=
  mem_missing.mpr ⟨_, List.mem_cons_self, rfl, rfl, by decide⟩

/-- The two labels of the first candle differ. -/
theorem gap_labels_differ : ∃ prices : List (PriceRow (Flt ℝ)),
    prices.map PriceRow.key = gapKeys ∧ (∀ f ∈ gapFeatures, f.key ∈ prices.map PriceRow.key) ∧
    ∃ v w, targetAt realNumerics gapFeatures prices "BTCUSDT" (6 * minute) 0 = some v ∧
      Fills realNumerics "BTCUSDT" prices (6 * minute) gapForecasts 0 w ∧ v ≠ w := by
  have hkeys : gapKeys.Nodup := by decide
  have hfeatures : (gapFeatures.map FeatureRow.key).Nodup := by rw [keys_gapFeatures]; decide
  have hnone : ("BTCUSDT", minute) ∉ gapFeatures.map FeatureRow.key := by
    rw [keys_gapFeatures]
    decide
  have hhole : minute ∈ (timesAhead gapKeys "BTCUSDT" 0).take (forwardWindow + 1) := by decide
  obtain ⟨y, hy, hlabel⟩ :=
    labelAt_spike separates_realNumerics hkeys hasTarget_gap hhole hnone
  refine ⟨spike gapKeys minute, keys_spike, fun f hf => ?_, .fin 0, .fin y, ?_, ?_, ?_⟩
  · have hsub : gapFeatures.map FeatureRow.key ⊆ gapKeys := by
      rw [keys_gapFeatures]
      decide
    rw [keys_spike]
    exact hsub (List.mem_map_of_mem hf)
  · exact targetAt_spike separates_realNumerics hkeys hfeatures hasTarget_gap hnone
  · exact (fills_iff (nodup_spike hkeys)).mpr ⟨missing_gap, hlabel⟩
  · exact fun hc => hy.ne (Flt.fin.inj hc)

/-- The theorem for these rows. -/
theorem labels_agree_iff_gap :
    (∀ prices : List (PriceRow (Flt ℝ)), prices.map PriceRow.key = gapKeys → ∀ v w,
        targetAt realNumerics gapFeatures prices "BTCUSDT" (6 * minute) 0 = some v →
        Fills realNumerics "BTCUSDT" prices (6 * minute) gapForecasts 0 w → v = w) ↔
      (HasTarget gapFeatures gapKeys "BTCUSDT" (6 * minute) 0 →
        0 ∈ fetchForecastsMissingRealized gapForecasts "BTCUSDT" forwardWindow (6 * minute) →
        Covered gapFeatures gapKeys "BTCUSDT" 0) :=
  labels_agree_iff separates_realNumerics (by decide) (by rw [keys_gapFeatures]; decide)
    gapForecasts "BTCUSDT" (6 * minute) (6 * minute) 0

end PortfolioEngine.Forecasting
