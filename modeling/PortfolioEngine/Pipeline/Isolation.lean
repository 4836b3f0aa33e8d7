import PortfolioEngine.Features.Restart
import PortfolioEngine.Forecasting.Queue
import PortfolioEngine.Forecasting.Training

/-!
# The symbols do not interfere

The symbols share one stream, one loop and the same tables. `symbol_isolation`: where nothing
raises, what is stored for a symbol, and the bundle that it is trained to, is what would come of its
own rows alone, whatever the entries, gaps and duplicates of the others are.

What raises couples them: an entry that cannot be read stops the consume loop for all, and an
exception in the turn of a symbol ends the cycle before the turns of the later ones. Only a failure
to train a symbol is caught for the symbol alone.
-/

namespace PortfolioEngine.Pipeline

open Tables Features Forecasting Garch

variable {K : Type*} {s : Symbol}

/-! ## Keys and symbols -/

theorem symbol_of_priceKey {α : Type*} (x y : PriceRow α) (h : x.key = y.key) :
    x.symbol = y.symbol := congrArg Prod.fst h

theorem symbol_of_featureKey (x y : FeatureRow K) (h : x.key = y.key) : x.symbol = y.symbol :=
  congrArg Prod.fst h

theorem symbol_of_forecastKey (x y : ForecastRow K) (h : x.key = y.key) : x.symbol = y.symbol :=
  congrArg Prod.fst h

variable [Field K] [LinearOrder K] {P : Numerics K}

/-! ## The consume loop -/

section Consume

/-- The second stores hold what the first ones hold of a symbol. -/
structure Restricts (s : Symbol) (st st' : Stores K) : Prop where
  prices : ofKind PriceRow.symbol s st.prices = st'.prices
  features : ofKind FeatureRow.symbol s st.features = st'.features
  buffers : st.buffers s = st'.buffers s

variable {st st' : Stores K} {candle : PriceRow K}

theorem Restricts.other (h : Restricts s st st') (hs : candle.symbol ≠ s) :
    Restricts s (consumeOne P st candle) st' := by
  have hprices :
      ofKind PriceRow.symbol s (insertNew PriceRow.key candle st.prices) = st'.prices := by
    rw [ofKind_insertNew symbol_of_priceKey, if_neg hs]
    exact h.prices
  unfold consumeOne
  dsimp only
  split_ifs
  · refine ⟨hprices, ?_, (Function.update_of_ne hs.symm _ _).trans h.buffers⟩
    exact (ofKind_insertNew symbol_of_featureKey _ _).trans ((if_neg hs).trans h.features)
  · exact ⟨hprices, h.features, (Function.update_of_ne hs.symm _ _).trans h.buffers⟩

theorem Restricts.own (h : Restricts s st st') (hs : candle.symbol = s) :
    Restricts s (consumeOne P st candle) (consumeOne P st' candle) := by
  subst hs
  have hprices : ofKind PriceRow.symbol candle.symbol (insertNew PriceRow.key candle st.prices) =
      insertNew PriceRow.key candle st'.prices := by
    rw [ofKind_insertNew symbol_of_priceKey, if_pos rfl, h.prices]
  unfold consumeOne
  dsimp only
  rw [h.buffers]
  split_ifs
  · refine ⟨hprices, ?_, ?_⟩
    · refine (ofKind_insertNew symbol_of_featureKey _ _).trans ((if_pos rfl).trans ?_)
      rw [h.features]
    · dsimp only
      rw [Function.update_self, Function.update_self]
  · refine ⟨hprices, h.features, ?_⟩
    dsimp only
    rw [Function.update_self, Function.update_self]

/-- The entries of a symbol are consumed as if they were alone. -/
theorem restricts_consume (P : Numerics K) (s : Symbol) (es : List (PriceRow K)) :
    Restricts s (consume P es) (consume P (ofKind PriceRow.symbol s es)) := by
  induction es using List.reverseRecOn with
  | nil => exact ⟨rfl, rfl, rfl⟩
  | append_singleton es candle ih =>
    rw [consume_concat, ofKind_concat]
    split_ifs with hs
    · rw [consume_concat]
      exact ih.own hs
    · exact ih.other hs

end Consume

/-! ## The training -/

section Training

variable {features : List (FeatureRow K)} {prices : List (PriceRow (Flt K))}

omit [Field K] [LinearOrder K] in
theorem fetchTrainingData_ofKind (s : Symbol) (windowDays : ℕ) (now : ℤ) :
    fetchTrainingData (ofKind FeatureRow.symbol s features) (ofKind PriceRow.symbol s prices) s
      windowDays now = fetchTrainingData features prices s windowDays now := by
  unfold fetchTrainingData
  refine congrArg _ ?_
  have hjoin : ∀ p : PriceRow (Flt K), ((ofKind FeatureRow.symbol s features).filter fun f =>
      f.key = p.key ∧ f.symbol = s ∧ now - windowDays * day ≤ f.time) = features.filter fun f =>
        f.key = p.key ∧ f.symbol = s ∧ now - windowDays * day ≤ f.time := fun p =>
    filter_ofKind (fun f hf => (of_decide_eq_true hf).2.1) features
  simp only [hjoin]
  induction prices with
  | nil => rfl
  | cons p prices ih =>
    by_cases hp : p.symbol = s
    · have hown :
          ofKind PriceRow.symbol s (p :: prices) = p :: ofKind PriceRow.symbol s prices := by
        simp [ofKind, hp]
      rw [hown, List.flatMap_cons, List.flatMap_cons, ih]
    · have hother : ofKind PriceRow.symbol s (p :: prices) = ofKind PriceRow.symbol s prices := by
        simp [ofKind, hp]
      have hnone : (features.filter fun f =>
          f.key = p.key ∧ f.symbol = s ∧ now - windowDays * day ≤ f.time) = [] := by
        refine List.filter_eq_nil_iff.mpr fun f _ hf => hp ?_
        obtain ⟨hkey, hsymbol, _⟩ := of_decide_eq_true hf
        exact (congrArg Prod.fst hkey).symm.trans hsymbol
      rw [hother, List.flatMap_cons, hnone, ih]
      rfl

theorem trainSymbol_ofKind (sqrt : K → K) (arch : Arch K) (xgboost : Xgboost K) (s : Symbol)
    (now : ℤ) : trainSymbol P sqrt arch xgboost (ofKind FeatureRow.symbol s features)
      (ofKind PriceRow.symbol s prices) s now =
        trainSymbol P sqrt arch xgboost features prices s now := by
  unfold trainSymbol
  rw [fetchTrainingData_ofKind]

end Training

/-! ## The inference -/

section Inference

variable {t : List (ForecastRow K)} {symbol : Symbol}

omit [Field K] [LinearOrder K] in
theorem ofKind_insertForecasts {rows : List (ForecastRow K)} (hrows : ∀ r ∈ rows, r.symbol = symbol)
    (t : List (ForecastRow K)) : ofKind ForecastRow.symbol s (insertForecasts rows t) =
      if symbol = s then insertForecasts rows (ofKind ForecastRow.symbol s t)
      else ofKind ForecastRow.symbol s t := by
  unfold insertForecasts
  induction rows generalizing t with
  | nil => simp
  | cons r rows ih =>
    have hr := hrows r List.mem_cons_self
    rw [List.foldl_cons, ih (fun x hx => hrows x (List.mem_cons_of_mem r hx)),
      ofKind_insertNew symbol_of_forecastKey, hr]
    split_ifs <;> rfl

omit [Field K] [LinearOrder K] in
theorem ofKind_updateRealizedVol (symbol : Symbol) (updates : List (Flt K × ℤ))
    (t : List (ForecastRow K)) : ofKind ForecastRow.symbol s (updateRealizedVol symbol updates t) =
      if symbol = s then updateRealizedVol symbol updates (ofKind ForecastRow.symbol s t)
      else ofKind ForecastRow.symbol s t := by
  unfold updateRealizedVol
  induction updates generalizing t with
  | nil => simp
  | cons u updates ih =>
    have hmap : ofKind ForecastRow.symbol s (setRealizedVol symbol t u) =
        setRealizedVol symbol (ofKind ForecastRow.symbol s t) u :=
      ofKind_map (fun r => by split_ifs <;> rfl) t
    rw [List.foldl_cons, ih, hmap]
    split_ifs with hs
    · rfl
    · -- the rows of another symbol are not the ones that are updated
      refine (List.map_congr_left fun r hr => if_neg fun hc => hs ?_).trans (List.map_id _)
      exact hc.2.symm.trans (mem_ofKind.mp hr).2

omit [Field K] [LinearOrder K] in
theorem fetchForecastsMissingRealized_ofKind (s : Symbol) (window : ℕ) (now : ℤ) :
    fetchForecastsMissingRealized (ofKind ForecastRow.symbol s t) s window now =
      fetchForecastsMissingRealized t s window now := by
  unfold fetchForecastsMissingRealized
  rw [filter_ofKind fun r hr => (of_decide_eq_true hr).1]

omit [Field K] [LinearOrder K] in
theorem fetchPricesSince_ofKind (prices : List (PriceRow (Flt K))) (s : Symbol) (start : ℤ) :
    fetchPricesSince (ofKind PriceRow.symbol s prices) s start =
      fetchPricesSince prices s start := by
  unfold fetchPricesSince
  rw [filter_ofKind fun r hr => (of_decide_eq_true hr).1]

/-- The backfill of a symbol is that of its own rows, and leaves the other rows alone. -/
theorem ofKind_backfillRealizedVol (symbol : Symbol) (prices : List (PriceRow (Flt K))) (now : ℤ)
    (t : List (ForecastRow K)) :
    ofKind ForecastRow.symbol s (backfillRealizedVol P symbol prices now t) =
      if symbol = s then backfillRealizedVol P symbol (ofKind PriceRow.symbol s prices) now
        (ofKind ForecastRow.symbol s t)
      else ofKind ForecastRow.symbol s t := by
  split_ifs with hs
  · subst hs
    unfold backfillRealizedVol
    rw [fetchForecastsMissingRealized_ofKind]
    split
    · rfl
    · dsimp only
      rw [fetchPricesSince_ofKind]
      split_ifs
      · rfl
      · rw [ofKind_updateRealizedVol, if_pos rfl]
  · unfold backfillRealizedVol
    split
    · rfl
    · dsimp only
      split_ifs
      · rfl
      · rw [ofKind_updateRealizedVol, if_neg hs]

/-- What a visit finds of a symbol. -/
def ownVisit (s : Symbol) (visit : Visit K) : Visit K :=
  { visit with
    features := ofKind FeatureRow.symbol s visit.features
    prices := ofKind PriceRow.symbol s visit.prices }

omit [Field K] [LinearOrder K] in
theorem pending_ofKind (features : List (FeatureRow K)) (t : List (ForecastRow K)) (s : Symbol) :
    pending (ofKind FeatureRow.symbol s features) (ofKind ForecastRow.symbol s t) s =
      pending features t s := by
  unfold pending
  rw [filter_ofKind fun f hf => (of_decide_eq_true hf).1]
  refine List.filter_congr fun f _ => decide_eq_decide.mpr (and_congr_right fun hf => not_congr ?_)
  constructor
  · intro h
    obtain ⟨r, hr, hkey⟩ := List.mem_map.mp h
    exact List.mem_map.mpr ⟨r, (mem_ofKind.mp hr).1, hkey⟩
  · intro h
    obtain ⟨r, hr, hkey⟩ := List.mem_map.mp h
    have hsymbol : r.symbol = s := (congrArg Prod.fst hkey).trans hf
    exact List.mem_map.mpr ⟨r, mem_ofKind.mpr ⟨hr, hsymbol⟩, hkey⟩

/-- The turn of a symbol is one on its own rows, and leaves the other rows alone. -/
theorem ofKind_inferSymbol (symbol : Symbol) (visit : Visit K) (t : List (ForecastRow K)) :
    ofKind ForecastRow.symbol s (inferSymbol P symbol visit t) =
      if symbol = s then inferSymbol P symbol (ownVisit s visit) (ofKind ForecastRow.symbol s t)
      else ofKind ForecastRow.symbol s t := by
  have hpreds : ∀ (b : Bundle K) (valid : List (FeatureRow K)),
      ∀ r ∈ preds symbol b valid, r.symbol = symbol := fun b valid r hr => symbol_of_mem_preds hr
  split_ifs with hs
  · subst hs
    unfold inferSymbol ownVisit
    dsimp only
    split
    · rfl
    · unfold fetchUnforecastedFeatures
      rw [pending_ofKind]
      split_ifs
      · rw [ofKind_backfillRealizedVol, if_pos rfl]
      · rw [ofKind_backfillRealizedVol, if_pos rfl]
      · rw [ofKind_backfillRealizedVol, if_pos rfl, ofKind_insertForecasts (hpreds _ _), if_pos rfl]
  · unfold inferSymbol
    split
    · rfl
    · dsimp only
      split_ifs
      · rw [ofKind_backfillRealizedVol, if_neg hs]
      · rw [ofKind_backfillRealizedVol, if_neg hs]
      · rw [ofKind_backfillRealizedVol, if_neg hs, ofKind_insertForecasts (hpreds _ _), if_neg hs]

/-- In a cycle a symbol has its turn, as if the others had none. -/
theorem ofKind_runInference (hs : s ∈ symbols) (visits : Symbol → Visit K)
    (t : List (ForecastRow K)) :
    ofKind ForecastRow.symbol s (runInference P visits t) =
      inferSymbol P s (ownVisit s (visits s)) (ofKind ForecastRow.symbol s t) := by
  have hothers : ∀ (l : List Symbol) (t : List (ForecastRow K)), s ∉ l →
      ofKind ForecastRow.symbol s (l.foldl (fun t symbol => inferSymbol P symbol (visits symbol) t)
        t) = ofKind ForecastRow.symbol s t := by
    intro l
    induction l with
    | nil => exact fun t _ => rfl
    | cons symbol l ih =>
      intro t hl
      rw [List.mem_cons, not_or] at hl
      rw [List.foldl_cons, ih _ hl.2, ofKind_inferSymbol, if_neg (Ne.symm hl.1)]
  have hnodup : symbols.Nodup := by decide
  obtain ⟨before, after, hsplit⟩ := List.append_of_mem hs
  rw [hsplit, List.nodup_append, List.nodup_cons] at hnodup
  have hbefore : s ∉ before := fun h => hnodup.2.2 _ h _ List.mem_cons_self rfl
  unfold runInference
  rw [hsplit, List.foldl_append, List.foldl_cons, hothers _ _ hnodup.2.1.1, ofKind_inferSymbol,
    if_pos rfl, hothers _ _ hbefore]

theorem ofKind_afterCycles (hs : s ∈ symbols) (cycles : List (Symbol → Visit K)) :
    ofKind ForecastRow.symbol s (afterCycles P cycles) =
      cycles.foldl (fun t visits => inferSymbol P s (ownVisit s (visits s)) t) [] := by
  unfold afterCycles
  induction cycles using List.reverseRecOn with
  | nil => rfl
  | append_singleton cycles visits ih =>
    rw [List.foldl_concat, List.foldl_concat, ofKind_runInference hs, ih]

end Inference

/-- **The symbols do not interfere.** Of any stream of candles that can be read, a symbol has the
prices, the features and the buffer that its own entries would give; it is trained to the bundle
that its own rows would give; and any cycles in which no turn raises give it the forecasts that its
own turns on its own rows would give. -/
theorem symbol_isolation (P : Numerics K) (sqrt : K → K) {s : Symbol} (hs : s ∈ symbols)
    (stream : List (PriceRow K)) (features : List (FeatureRow K)) (prices : List (PriceRow (Flt K)))
    (now : ℤ) (arch : Arch K) (xgboost : Xgboost K) (cycles : List (Symbol → Visit K)) :
    Restricts s (consume P stream) (consume P (ofKind PriceRow.symbol s stream)) ∧
      trainSymbol P sqrt arch xgboost (ofKind FeatureRow.symbol s features)
        (ofKind PriceRow.symbol s prices) s now =
          trainSymbol P sqrt arch xgboost features prices s now ∧
      ofKind ForecastRow.symbol s (afterCycles P cycles) =
        cycles.foldl (fun t visits => inferSymbol P s (ownVisit s (visits s)) t) [] :=
  ⟨restricts_consume P s stream, trainSymbol_ofKind sqrt arch xgboost s now,
    ofKind_afterCycles hs cycles⟩

/-! ## Steady candles of all symbols -/

/-- `n` minutes of steady candles of each symbol. -/
noncomputable def steadyMarket (n : ℕ) : List (PriceRow ℝ) := symbols.flatMap fun s => steady s n

theorem ofKind_steady (s s' : Symbol) (n : ℕ) :
    ofKind PriceRow.symbol s (steady s' n) = if s' = s then steady s' n else [] := by
  split_ifs with hs
  · refine List.filter_eq_self.mpr fun c hc => ?_
    obtain ⟨i, _, rfl⟩ := mem_steady.mp hc
    exact decide_eq_true hs
  · refine List.filter_eq_nil_iff.mpr fun c hc => ?_
    obtain ⟨i, _, rfl⟩ := mem_steady.mp hc
    exact fun h => hs (of_decide_eq_true h)

theorem ofKind_steadyMarket (hs : s ∈ symbols) (n : ℕ) :
    ofKind PriceRow.symbol s (steadyMarket n) = steady s n := by
  have hsplit : steadyMarket n =
      steady "BTCUSDT" n ++ (steady "ETHUSDT" n ++ (steady "SOLUSDT" n ++ [])) := rfl
  have happend : ∀ l l' : List (PriceRow ℝ), ofKind PriceRow.symbol s (l ++ l') =
      ofKind PriceRow.symbol s l ++ ofKind PriceRow.symbol s l' := List.filter_append
  have hcases : s = "BTCUSDT" ∨ s = "ETHUSDT" ∨ s = "SOLUSDT" := by
    simpa [symbols] using hs
  rw [hsplit, happend, happend, happend, ofKind_steady, ofKind_steady, ofKind_steady]
  rcases hcases with rfl | rfl | rfl <;> simp [ofKind]

theorem mem_features_steadyMarket (hs : s ∈ symbols) (n : ℕ) (f : FeatureRow ℝ) :
    f ∈ (consume realNumerics (steadyMarket n)).features ∧ f.symbol = s ↔ f ∈ steadyRows s n := by
  have hown := (restricts_consume realNumerics s (steadyMarket n)).features
  rw [ofKind_steadyMarket hs, features_steady] at hown
  rw [← hown, mem_ofKind]

/-- Ether has the features, the models and the forecasts of its own candles. -/
theorem symbol_isolation_steady :
    ("ETHUSDT", 61 * minute) ∈
        (consume realNumerics (steadyMarket 62)).features.map FeatureRow.key ∧
      Restricts "ETHUSDT" (consume realNumerics (steadyMarket 62))
        (consume realNumerics (ofKind PriceRow.symbol "ETHUSDT" (steadyMarket 62))) ∧
      ofKind ForecastRow.symbol "ETHUSDT" (afterCycles realNumerics
          [fun _ => ⟨some steadyBundle, (consume realNumerics (steadyMarket 62)).features, [],
            0⟩]) =
        inferSymbol realNumerics "ETHUSDT" (ownVisit "ETHUSDT"
          ⟨some steadyBundle, (consume realNumerics (steadyMarket 62)).features, [], 0⟩) [] := by
  have hfirst := ((mem_features_steadyMarket (s := "ETHUSDT") (by decide) 62 _).mpr
    (mem_steadyRows.mpr ⟨61, le_rfl, by decide, rfl⟩)).1
  have hkey := List.mem_map_of_mem (f := FeatureRow.key) hfirst
  generalize steadyMarket 62 = stream at hkey ⊢
  obtain ⟨hconsume, _, hcycles⟩ := symbol_isolation realNumerics Real.sqrt (s := "ETHUSDT")
    (by decide) stream [] [] 0 sampleArch ⟨false, fun _ _ => none⟩
    [fun _ => ⟨some steadyBundle, (consume realNumerics stream).features, [], 0⟩]
  exact ⟨hkey, hconsume, hcycles⟩

end PortfolioEngine.Pipeline
