import PortfolioEngine.Forecasting.Inference

/-!
# The realized volatility that is written back

The label of a time is the volatility over the closes of the rows from that time on, so it does not
depend on where the series starts. `backfillRealizedVol_eq` says what `_backfill_realized_vol` does
to each row of `forecasts`.
-/

namespace PortfolioEngine.Forecasting

open Recent Features

variable {K : Type*} [Field K] [LinearOrder K]

/-! ## Labels of windows -/

/-- The volatility over the closes of a window. -/
def windowVol (P : Numerics K) (closes : Series K) : Flt K :=
  forwardVol P ((List.zipWith Flt.div closes.tail closes).map fun x => square (P.log x))

theorem squaredReturns_window (P : Numerics K) (close : Series K) {w i : ℕ}
    (hi : i + w < close.length) :
    ((squaredReturns P close).drop (i + 1)).take w =
      (List.zipWith Flt.div ((close.drop i).take (w + 1)).tail ((close.drop i).take (w + 1))).map
        fun x => square (P.log x) := by
  have hlen : (squaredReturns P close).length = close.length := length_squaredReturns
  apply List.ext_getElem
  · simp only [List.length_take, List.length_drop, List.length_map, List.length_zipWith,
      List.length_tail, hlen]
    omega
  · intro j hj _
    simp only [List.length_take, List.length_drop, hlen] at hj
    have hj' : i + j < close.length := by omega
    have hs : i + 1 + j < (shift Flt.nan close).length := by
      rw [length_shift]
      omega
    have hshift : (shift Flt.nan close)[i + 1 + j] = close[i + j] := by
      simp only [shift, List.getElem_take, show i + 1 + j = i + j + 1 by omega,
        List.getElem_cons_succ]
    simp only [squaredReturns, List.getElem_take, List.getElem_drop, List.getElem_map,
      List.getElem_zipWith, List.getElem_tail, hshift]
    congr 4
    omega

/-- The label at `i` is the volatility over the closes from `i` to `i + w`. -/
theorem getElem?_computeForwardRealizedVol (P : Numerics K) (close : Series K) (w : ℕ) {i : ℕ}
    (hi : i < close.length) :
    (computeForwardRealizedVol P close w)[i]? =
      some (if i + w < close.length then windowVol P ((close.drop i).take (w + 1)) else .nan) := by
  have hlen : (squaredReturns P close).length = close.length := length_squaredReturns
  unfold computeForwardRealizedVol
  dsimp only
  rw [List.getElem?_map, List.getElem?_range (hlen ▸ hi), Option.map_some, hlen]
  by_cases hw : i + w < close.length
  · rw [if_pos hw, if_pos (by omega), squaredReturns_window P close hw]
    rfl
  · rw [if_neg hw, if_neg (by omega)]

/-! ## Labels by time -/

/-- The label of the time `t` in a series with its times, unless it is missing. -/
def labelAt (P : Numerics K) (rows : List (ℤ × Flt K)) (t : ℤ) : Option (Flt K) :=
  notNan (((rows.map Prod.fst).zip
    (computeForwardRealizedVol P (rows.map Prod.snd) forwardWindow)).lookup t)

/-- The rows from the time `t` on. -/
def ahead (t : ℤ) (rows : List (ℤ × Flt K)) : List (ℤ × Flt K) := rows.filter fun r => t ≤ r.1

/-- The label of `t`, from the rows from `t` on. -/
def aheadLabel (P : Numerics K) (t : ℤ) (rows : List (ℤ × Flt K)) : Option (Flt K) :=
  if t ∈ rows.map Prod.fst ∧ forwardWindow < rows.length then
    notNan (some (windowVol P ((rows.map Prod.snd).take (forwardWindow + 1))))
  else none

omit [Field K] [LinearOrder K] in
theorem lookup_zip {t : ℤ} {before after : List ℤ} (h : t ∉ before) (values : Series K) :
    ((before ++ t :: after).zip values).lookup t = values[before.length]? := by
  induction before generalizing values with
  | nil => cases values <;> simp
  | cons s before ih =>
    have hs : t ≠ s := fun hc => h (hc ▸ List.mem_cons_self)
    cases values with
    | nil => rfl
    | cons v values =>
      rw [List.cons_append, List.zip_cons_cons, List.lookup_cons, beq_false_of_ne hs,
        ih fun hc => h (List.mem_cons_of_mem s hc)]
      rfl

omit [Field K] [LinearOrder K] in
theorem lookup_zip_of_not_mem {t : ℤ} {times : List ℤ} (h : t ∉ times) (values : Series K) :
    (times.zip values).lookup t = none := by
  refine List.lookup_eq_none_iff.mpr fun p hp => ?_
  rw [bne_iff_ne]
  exact fun hc => h (hc ▸ (List.of_mem_zip hp).1)

omit [Field K] [LinearOrder K] in
theorem not_mem_before {before after : List (ℤ × Flt K)} {r : ℤ × Flt K}
    (h : (before ++ r :: after).Pairwise fun x y => x.1 < y.1) : r.1 ∉ before.map Prod.fst := by
  intro hc
  obtain ⟨x, hx, he⟩ := List.mem_map.mp hc
  exact ((List.pairwise_append.mp h).2.2 x hx r List.mem_cons_self).ne he

omit [Field K] [LinearOrder K] in
theorem ahead_append {before after : List (ℤ × Flt K)} {r : ℤ × Flt K}
    (h : (before ++ r :: after).Pairwise fun x y => x.1 < y.1) :
    ahead r.1 (before ++ r :: after) = r :: after := by
  obtain ⟨_, hafter, hbefore⟩ := List.pairwise_append.mp h
  unfold ahead
  rw [List.filter_append, List.filter_eq_nil_iff.mpr, List.nil_append, List.filter_eq_self.mpr]
  · intro x hx
    rcases List.mem_cons.mp hx with rfl | hx
    · exact decide_eq_true le_rfl
    · exact decide_eq_true ((List.pairwise_cons.mp hafter).1 x hx).le
  · intro x hx
    simpa using hbefore x hx r List.mem_cons_self

theorem labelAt_eq (P : Numerics K) {rows : List (ℤ × Flt K)}
    (h : rows.Pairwise fun x y => x.1 < y.1) (t : ℤ) :
    labelAt P rows t = aheadLabel P t (ahead t rows) := by
  unfold labelAt aheadLabel
  by_cases ht : t ∈ rows.map Prod.fst
  · obtain ⟨r, hr, rfl⟩ := List.mem_map.mp ht
    obtain ⟨before, after, rfl⟩ := List.append_of_mem hr
    have hmem : r.1 ∈ (r :: after).map Prod.fst := List.mem_cons_self
    rw [ahead_append h, List.map_append, List.map_cons, lookup_zip (not_mem_before h),
      List.length_map, getElem?_computeForwardRealizedVol P _ _ (by simp), List.map_append,
      List.drop_left' (List.length_map _)]
    by_cases hw : forwardWindow < (r :: after).length
    · rw [if_pos (by simp at hw ⊢; omega), if_pos ⟨hmem, hw⟩]
    · rw [if_neg (by simp at hw ⊢; omega), if_neg fun hc => hw hc.2]
      rfl
  · have hahead : t ∉ (ahead t rows).map Prod.fst :=
      fun hc => ht ((List.Sublist.map _ List.filter_sublist).subset hc)
    rw [lookup_zip_of_not_mem ht, if_neg fun hc => hahead hc.1]
    rfl

/-! ## The closes of a symbol -/

/-- The times and closes of some rows of `prices`, in the order of time. -/
def timedCloses (prices : List (PriceRow (Flt K))) : List (ℤ × Flt K) :=
  Backlog.ordered Prod.fst (prices.map fun r => (r.time, r.close))

section Closes

variable {prices : List (PriceRow (Flt K))} {symbol : Symbol} {t : ℤ}

omit [Field K] [LinearOrder K] in
theorem fetchPricesSince_eq (start : ℤ) : fetchPricesSince prices symbol start =
    timedCloses (prices.filter fun r => r.symbol = symbol ∧ start ≤ r.time) :=
  Backlog.map_ordered PriceRow.time Prod.fst _ fun _ => rfl

omit [Field K] [LinearOrder K] in
theorem nodup_times (h : (prices.map PriceRow.key).Nodup) {p : PriceRow (Flt K) → Bool}
    (hp : ∀ r ∈ prices, p r → r.symbol = symbol) :
    (((prices.filter p).map fun r => (r.time, r.close)).map Prod.fst).Nodup := by
  rw [List.map_map]
  refine List.Nodup.map_on (fun x hx y hy hxy => ?_) ((h.of_map _).filter p)
  obtain ⟨hx, hxp⟩ := List.mem_filter.mp hx
  obtain ⟨hy, hyp⟩ := List.mem_filter.mp hy
  exact Tables.eq_of_key_eq h hx hy (Prod.ext ((hp x hx hxp).trans (hp y hy hyp).symm) hxy)

omit [Field K] [LinearOrder K] in
theorem ahead_timedCloses (h : (prices.map PriceRow.key).Nodup) {p : PriceRow (Flt K) → Bool}
    (hp : ∀ r ∈ prices, p r → r.symbol = symbol) (t : ℤ) :
    ahead t (timedCloses (prices.filter p)) =
      timedCloses (prices.filter fun r => p r ∧ t ≤ r.time) := by
  unfold ahead timedCloses
  rw [Backlog.filter_ordered (nodup_times h hp), List.filter_map, List.filter_filter]
  congr 3
  funext r
  simp [Bool.and_comm]

theorem labelAt_timedCloses (P : Numerics K) (h : (prices.map PriceRow.key).Nodup)
    {p : PriceRow (Flt K) → Bool} (hp : ∀ r ∈ prices, p r → r.symbol = symbol) (t : ℤ) :
    labelAt P (timedCloses (prices.filter p)) t =
      aheadLabel P t (timedCloses (prices.filter fun r => p r ∧ t ≤ r.time)) := by
  have hstrict : (timedCloses (prices.filter p)).Pairwise fun x y => x.1 < y.1 :=
    Backlog.strict_ordered (nodup_times h hp)
  rw [labelAt_eq P hstrict, ahead_timedCloses h hp]

end Closes

/-! ## What is written -/

section Backfill

/-- The row with its realized volatility, if there is one to fill in. -/
def ForecastRow.fill (r : ForecastRow K) (v : Option (Flt K)) : ForecastRow K :=
  { r with realizedVol := v.or r.realizedVol }

omit [Field K] [LinearOrder K] in
@[simp] theorem ForecastRow.fill_none (r : ForecastRow K) : r.fill none = r := rfl

variable {P : Numerics K} {symbol : Symbol} {forecasts : List (ForecastRow K)}
  {prices : List (PriceRow (Flt K))} {now : ℤ}

omit [Field K] [LinearOrder K] in
theorem updateRealizedVol_filterMap (value : ℤ → Option (Flt K)) (times : List ℤ) :
    updateRealizedVol symbol
      (times.filterMap fun ts => (value ts).map fun v => (v, ts)) forecasts =
      forecasts.map fun r =>
        if r.symbol = symbol ∧ r.time ∈ times then r.fill (value r.time) else r := by
  induction times generalizing forecasts with
  | nil => simp [updateRealizedVol]
  | cons ts times ih =>
    cases hv : value ts with
    | none =>
      rw [List.filterMap_cons_none (by rw [hv]; rfl), ih]
      refine List.map_congr_left fun r _ => ?_
      by_cases hr : r.time = ts
      · subst hr
        simp [hv]
      · simp [hr]
    | some v =>
      rw [List.filterMap_cons_some (by rw [hv]; rfl)]
      show updateRealizedVol symbol _ (setRealizedVol symbol forecasts (v, ts)) = _
      rw [ih]
      unfold setRealizedVol
      rw [List.map_map]
      refine List.map_congr_left fun r _ => ?_
      by_cases hs : r.symbol = symbol
      · by_cases hr : r.time = ts
        · subst hr
          simp [hs, hv, ForecastRow.fill]
        · simp [hs, hr]
      · simp [hs]

omit [Field K] [LinearOrder K] in
theorem fst_le_of_mem_ordered {rows : List (ForecastRow K)} {first : ℤ} {rest : List ℤ}
    (h : (Backlog.ordered ForecastRow.time rows).map ForecastRow.time = first :: rest) :
    ∀ ts ∈ first :: rest, first ≤ ts := by
  have hsorted : (first :: rest).Pairwise (· ≤ ·) :=
    h ▸ List.pairwise_map.mpr (Backlog.pairwise_ordered ForecastRow.time rows)
  intro ts hts
  rcases List.mem_cons.mp hts with rfl | hts
  · exact le_rfl
  · exact (List.pairwise_cons.mp hsorted).1 ts hts

/-- The closes from a start time on give the same label as all of them. -/
theorem labelAt_since (P : Numerics K) (symbol : Symbol) (h : (prices.map PriceRow.key).Nodup)
    {start t : ℤ} (ht : start ≤ t) :
    labelAt P (fetchPricesSince prices symbol start) t =
      labelAt P (timedCloses (prices.filter fun r => r.symbol = symbol)) t := by
  rw [fetchPricesSince_eq, labelAt_timedCloses P h, labelAt_timedCloses P h]
  · congr 3
    funext r
    refine decide_eq_decide.mpr ?_
    simp only [decide_eq_true_eq]
    exact ⟨fun hr => ⟨hr.1.1, hr.2⟩, fun hr => ⟨⟨hr.1, ht.trans hr.2⟩, hr.2⟩⟩
  · exact fun r _ hr => of_decide_eq_true hr
  · exact fun r _ hr => (of_decide_eq_true hr).1

/-- **The backfill.** Each pending row of the symbol gets the label of its time over all closes of
the symbol, unless that is missing; nothing else changes. -/
theorem backfillRealizedVol_eq (h : (prices.map PriceRow.key).Nodup) :
    backfillRealizedVol P symbol prices now forecasts = forecasts.map fun r =>
      if r.symbol = symbol ∧
          r.time ∈ fetchForecastsMissingRealized forecasts symbol forwardWindow now then
        r.fill (labelAt P (timedCloses (prices.filter fun r => r.symbol = symbol)) r.time)
      else r := by
  unfold backfillRealizedVol
  split
  next hmissing => simp [hmissing]
  next first rest hmissing =>
    have hfirst : ∀ ts ∈ first :: rest, first - minute ≤ ts := by
      intro ts hts
      have := fst_le_of_mem_ordered hmissing ts hts
      unfold minute
      omega
    rw [hmissing]
    dsimp only
    split_ifs with hempty
    · refine (List.map_id' _).symm.trans (List.map_congr_left fun r _ => ?_)
      split_ifs with hr
      · have hlabel := labelAt_since P symbol h (hfirst r.time hr.2)
        rw [← hlabel, List.isEmpty_iff.mp hempty]
        rfl
      · rfl
    · refine (updateRealizedVol_filterMap
        (labelAt P (fetchPricesSince prices symbol (first - minute))) _).trans ?_
      refine List.map_congr_left fun r _ => ?_
      split_ifs with hr
      · rw [labelAt_since P symbol h (hfirst r.time hr.2)]
      · rfl

/-- The backfill fills in `w` for the time `t`. -/
def Fills (P : Numerics K) (symbol : Symbol) (prices : List (PriceRow (Flt K))) (now : ℤ)
    (forecasts : List (ForecastRow K)) (t : ℤ) (w : Flt K) : Prop :=
  ∃ r ∈ forecasts.zip (backfillRealizedVol P symbol prices now forecasts),
    r.1.key = (symbol, t) ∧ r.1.realizedVol = none ∧ r.2.realizedVol = some w

omit [Field K] [LinearOrder K] in
theorem mem_missing {window : ℕ} {t : ℤ} :
    t ∈ fetchForecastsMissingRealized forecasts symbol window now ↔
      ∃ r ∈ forecasts, r.key = (symbol, t) ∧ r.realizedVol = none ∧ t ≤ now - window * minute := by
  unfold fetchForecastsMissingRealized
  constructor
  · intro h
    obtain ⟨r, hr, rfl⟩ := List.mem_map.mp h
    obtain ⟨hmem, hr⟩ := List.mem_filter.mp ((Backlog.mem_ordered _).mp hr)
    obtain ⟨hsym, hnone, hle⟩ := of_decide_eq_true hr
    exact ⟨r, hmem, Prod.ext hsym rfl, Option.isNone_iff_eq_none.mp hnone, hle⟩
  · rintro ⟨r, hmem, hkey, hnone, hle⟩
    obtain ⟨hsym, rfl⟩ := Prod.mk.inj hkey
    refine List.mem_map.mpr ⟨r, (Backlog.mem_ordered _).mpr (List.mem_filter.mpr ⟨hmem, ?_⟩), rfl⟩
    exact decide_eq_true ⟨hsym, Option.isNone_iff_eq_none.mpr hnone, hle⟩

theorem fills_iff (h : (prices.map PriceRow.key).Nodup) {t : ℤ} {w : Flt K} :
    Fills P symbol prices now forecasts t w ↔
      t ∈ fetchForecastsMissingRealized forecasts symbol forwardWindow now ∧
        labelAt P (timedCloses (prices.filter fun r => r.symbol = symbol)) t = some w := by
  have hzip : ∀ f : ForecastRow K → ForecastRow K,
      forecasts.zip (forecasts.map f) = forecasts.map fun r => (r, f r) := by
    intro f
    nth_rewrite 1 [← List.map_id forecasts]
    exact List.zip_map'
  unfold Fills
  rw [backfillRealizedVol_eq h, hzip]
  constructor
  · rintro ⟨_, hr, hkey, hnone, hw⟩
    obtain ⟨r, hr, rfl⟩ := List.mem_map.mp hr
    obtain ⟨hsym, rfl⟩ := Prod.mk.inj hkey
    dsimp only at hnone hw
    split_ifs at hw with hpending
    · refine ⟨hpending.2, ?_⟩
      rwa [ForecastRow.fill, hnone, Option.or_none] at hw
    · rw [hnone] at hw
      cases hw
  · rintro ⟨hmissing, hlabel⟩
    obtain ⟨r, hr, hkey, hnone, _⟩ := mem_missing.mp hmissing
    obtain ⟨hsym, rfl⟩ := Prod.mk.inj hkey
    refine ⟨_, List.mem_map.mpr ⟨r, hr, rfl⟩, hkey, hnone, ?_⟩
    dsimp only
    rw [if_pos ⟨hsym, hmissing⟩, ForecastRow.fill, hnone, Option.or_none]
    exact hlabel

end Backfill

end PortfolioEngine.Forecasting
