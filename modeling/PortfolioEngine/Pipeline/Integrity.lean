import PortfolioEngine.Forecasting.CompleteRows
import PortfolioEngine.Forecasting.ForwardMinutes
import PortfolioEngine.Pipeline.System

/-!
# References between the tables

The database has no foreign keys, and each table is filled by another service. `integrity`: all
the same, in every state that the services lead to, a key has one row in each table, each forecast
belongs to complete features of a symbol that is configured, and all features to a price.

A forecast is computed from features that were read before it is stored. They are still there then,
because no service deletes or changes a row of `features`.
-/

namespace PortfolioEngine.Pipeline

open Tables Features Forecasting

variable {K : Type*} [Field K] [LinearOrder K]

/-! ## The invariant -/

/-- The key is one of complete features of a configured symbol. -/
def Featured (features : List (FeatureRow K)) (key : Symbol × ℤ) : Prop :=
  key.1 ∈ symbols ∧ ∃ f ∈ features, f.key = key ∧ Complete f

omit [Field K] [LinearOrder K] in
theorem Featured.mono {features features' : List (FeatureRow K)} {key : Symbol × ℤ}
    (h : Featured features key) (hsub : features <+: features') : Featured features' key := by
  obtain ⟨hsymbol, f, hf, hkey⟩ := h
  exact ⟨hsymbol, f, hsub.subset hf, hkey⟩

/-- The symbols left are configured, and the rows that wait to be inserted are of features. -/
def Inference.Sound (features : List (FeatureRow K)) : Inference K → Prop
  | .sleeping => True
  | .turn l => l ⊆ symbols
  | .inserting _ rows rest => rest ⊆ symbols ∧ ∀ r ∈ rows, Featured features r.key
  | .missing _ rest => rest ⊆ symbols
  | .pricing _ _ _ rest => rest ⊆ symbols
  | .updating _ _ rest => rest ⊆ symbols

omit [Field K] [LinearOrder K] in
theorem Inference.Sound.mono {features features' : List (FeatureRow K)} {i : Inference K}
    (h : i.Sound features) (hsub : features <+: features') : i.Sound features' := by
  cases i with
  | inserting symbol rows rest => exact ⟨h.1, fun r hr => (h.2 r hr).mono hsub⟩
  | sleeping => trivial
  | turn l => exact h
  | missing symbol rest => exact h
  | pricing symbol first later rest => exact h
  | updating symbol updates rest => exact h

structure Inv (P : Numerics K) (w : World K) : Prop where
  cursors : ∃ k j, Restart.CursorInv P w.market k j
  unique : (w.forecasts.map ForecastRow.key).Nodup
  featured : ∀ key ∈ w.forecasts.map ForecastRow.key, Featured w.market.features key
  inference : ∀ i ∈ w.inference, i.Sound w.market.features

variable {P : Numerics K} {w w' : World K}

theorem Inv.start (P : Numerics K) (t : ℤ) : Inv P (World.start t) where
  cursors := ⟨0, 0, .start P []⟩
  unique := List.nodup_nil
  featured := by rintro key ⟨⟩
  inference := by rintro i ⟨⟩

/-! ## The forecasting service -/

omit [Field K] [LinearOrder K] in
theorem keys_setRealizedVol (symbol : Symbol) (forecasts : List (ForecastRow K))
    (update : Flt K × ℤ) :
    (setRealizedVol symbol forecasts update).map ForecastRow.key =
      forecasts.map ForecastRow.key := by
  unfold setRealizedVol
  rw [List.map_map]
  refine List.map_congr_left fun r _ => ?_
  rw [Function.comp_apply]
  split_ifs <;> rfl

omit [Field K] [LinearOrder K] in
theorem featured_preds {bundle : Option (Bundle K)} {symbol : Symbol} (b : Bundle K)
    (hsymbol : symbol ∈ symbols) :
    ∀ r ∈ preds symbol b (readable (w.visit bundle) w.forecasts symbol),
      Featured w.market.features r.key := by
  intro r hr
  have hread : ∀ f ∈ readable (w.visit bundle) w.forecasts symbol, f.symbol = symbol :=
    fun f hf => (mem_pending.mp (pending_of_readable hf)).2.1
  have hkey := List.mem_map_of_mem (f := ForecastRow.key) hr
  rw [keys_preds b hread] at hkey
  obtain ⟨f, hf, hfr⟩ := List.mem_map.mp hkey
  refine ⟨?_, f, (mem_pending.mp (pending_of_readable hf)).1, hfr, (mem_readable.mp hf).2⟩
  rw [← hfr]
  show f.symbol ∈ symbols
  rw [hread f hf]
  exact hsymbol

/-- A call keeps the keys of `forecasts` distinct and of features. -/
theorem Inv.calls {bundle : Option (Bundle K)} {i j : Inference K}
    {forecasts : List (ForecastRow K)} (h : Inv P w) (hi : w.inference = some i)
    (hcalls : Calls P w bundle i j forecasts) :
    Inv P { w with inference := some j, forecasts := forecasts } := by
  have hsound := h.inference i hi
  have hkeep : ∀ i', i'.Sound w.market.features →
      Inv P { w with inference := some i' } := fun i' hi' =>
    ⟨h.cursors, h.unique, h.featured, by rintro _ ⟨⟩; exact hi'⟩
  cases hcalls with
  | finish => exact hkeep _ trivial
  | skip symbol rest => exact hkeep _ fun s hs => hsound (List.mem_cons_of_mem symbol hs)
  | nothing symbol rest => exact hkeep _ fun s hs => hsound (List.mem_cons_of_mem symbol hs)
  | predict symbol rest b _ =>
    exact hkeep _ ⟨fun s hs => hsound (List.mem_cons_of_mem symbol hs),
      featured_preds b (hsound List.mem_cons_self)⟩
  | inserted symbol rest => exact hkeep _ hsound.1
  | insert symbol row rows rest =>
    have hrow := hsound.2 row List.mem_cons_self
    refine ⟨h.cursors, nodup_insertNew h.unique, fun key hkey => ?_, ?_⟩
    · obtain ⟨r, hr, rfl⟩ := List.mem_map.mp hkey
      rcases mem_insertNew.mp hr with hr | ⟨_, rfl⟩
      · exact h.featured _ (List.mem_map_of_mem hr)
      · exact hrow
    · rintro _ ⟨⟩
      exact ⟨hsound.1, fun r hr => hsound.2 r (List.mem_cons_of_mem row hr)⟩
  | complete symbol rest => exact hkeep _ hsound
  | missing symbol first later rest => exact hkeep _ hsound
  | price symbol first later rest => exact hkeep _ hsound
  | updated symbol rest => exact hkeep _ hsound
  | update symbol update updates rest =>
    have hkeys := keys_setRealizedVol symbol w.forecasts update
    refine ⟨h.cursors, hkeys ▸ h.unique, fun key hkey => ?_, ?_⟩
    · exact h.featured key (hkeys ▸ hkey)
    · rintro _ ⟨⟩
      exact hsound

/-! ## Every event -/

theorem Inv.market {e : Restart.Event K} {market : Restart.World K} (h : Inv P w)
    (hm : Restart.step P w.market e = some market) :
    Inv P { w with market := market } := by
  obtain ⟨k, j, hcursors⟩ := h.cursors
  obtain ⟨k', j', hcursors', _, _⟩ := hcursors.step hm
  have hgrows := Restart.grows_step hm
  refine ⟨⟨k', j', hcursors'⟩, h.unique, ?_, ?_⟩
  · exact fun key hkey => (h.featured key hkey).mono hgrows.features
  · exact fun i hi => (h.inference i hi).mono hgrows.features

theorem Inv.step {e : Event K} (h : Inv P w) (hstep : step P w e = some w') : Inv P w' := by
  have hplace : ∀ i, (∀ i' ∈ i, i'.Sound w.market.features) →
      Inv P { w with inference := i } := fun i hi =>
    ⟨h.cursors, h.unique, h.featured, hi⟩
  cases steps_of_step hstep with
  | tick t ht =>
    exact ⟨h.cursors, h.unique, h.featured, h.inference⟩
  | market e market hm => exact h.market hm
  | launch => exact hplace _ (by rintro _ ⟨⟩; trivial)
  | cycle => exact hplace _ (by rintro _ ⟨⟩; exact List.Subset.refl _)
  | call bundle i j forecasts hi hcalls => exact h.calls hi hcalls
  | raise => exact hplace _ (by rintro _ ⟨⟩; trivial)
  | crash => exact hplace _ (by rintro _ ⟨⟩)

theorem Reachable.inv (h : Reachable P w) : Inv P w := by
  obtain ⟨t, hreach⟩ := h
  exact hreach.invariant (Inv.start P t) fun s e s' hs hstep => hs.step hstep

/-! ## The tables -/

/-- Distinct keys in each table, and the references between them. -/
structure Integrity (w : World K) : Prop where
  uniquePrices : (w.market.prices.map PriceRow.key).Nodup
  uniqueFeatures : (w.market.features.map FeatureRow.key).Nodup
  uniqueForecasts : (w.forecasts.map ForecastRow.key).Nodup
  priced : ∀ f ∈ w.market.features, f.key ∈ w.market.prices.map PriceRow.key
  featured : ∀ r ∈ w.forecasts, r.symbol ∈ symbols ∧
    ∃ f ∈ w.market.features, f.key = r.key ∧ Complete f

theorem Inv.references (h : Inv P w) : Integrity w := by
  obtain ⟨k, j, hcursors⟩ := h.cursors
  have hat := hcursors.atCursors
  refine ⟨?_, ?_, h.unique, fun f hf => ?_, fun r hr => ?_⟩
  · rw [hat.prices]
    exact Restart.nodup_prices P _
  · rw [hat.features]
    exact nodup_features P _
  · rw [hat.features] at hf
    rw [hat.prices]
    exact Restart.priced_of_le P _ hat.behind hf
  · exact h.featured r.key (List.mem_map_of_mem hr)

theorem Inv.mem_stream (h : Inv P w) {r : PriceRow K} (hr : r ∈ w.market.prices) :
    r ∈ w.market.stream := by
  obtain ⟨k, j, hcursors⟩ := h.cursors
  rw [hcursors.atCursors.prices] at hr
  exact List.mem_of_mem_take (Restart.mem_of_mem_prices hr)

/-- **Referential integrity.** In every state that the services lead to, whatever the order of
their calls and wherever they are killed, the keys of each table are distinct, each forecast is of
complete features and all features are of a price. -/
theorem integrity {P : Numerics K} {w : World K} (h : Reachable P w) : Integrity w :=
  h.inv.references

/-! ## Steady candles -/

theorem prices_steady (symbol : Symbol) (n : ℕ) :
    (consume realNumerics (steady symbol n)).prices = steady symbol n := by
  induction n with
  | zero => rfl
  | succ n ih =>
    rw [steady_succ, Restart.prices_consume, ih]
    exact insertNew_of_not_mem (not_mem_keys_steady symbol n)

theorem mem_readable_steady {visit : Visit ℝ} {symbol : Symbol} {n : ℕ}
    (hkeys : (visit.features.map FeatureRow.key).Nodup)
    (hrows : ∀ f, f ∈ visit.features ∧ f.symbol = symbol ↔ f ∈ steadyRows symbol n) (hn : 61 < n) :
    rowFor realNumerics (steady symbol 61) (steadyCandle symbol 61) ∈ readable visit [] symbol := by
  have hfirst := (hrows _).mpr (mem_steadyRows.mpr ⟨61, le_rfl, hn, rfl⟩)
  have hpending : rowFor realNumerics (steady symbol 61) (steadyCandle symbol 61) ∈
      pending visit.features [] symbol :=
    mem_pending.mpr ⟨hfirst.1, hfirst.2, List.not_mem_nil⟩
  have hbefore : Backlog.before FeatureRow.time
      (rowFor realNumerics (steady symbol 61) (steadyCandle symbol 61))
      (pending visit.features [] symbol) = [] := by
    refine List.eq_nil_iff_forall_not_mem.mpr fun f hf => ?_
    obtain ⟨hf, hlt⟩ := Backlog.mem_before.mp hf
    obtain ⟨hmem, hsymbol, _⟩ := mem_pending.mp hf
    obtain ⟨i, hi, _, rfl⟩ := mem_steadyRows.mp ((hrows f).mp ⟨hmem, hsymbol⟩)
    have htime : (i : ℤ) * minute < (61 : ℕ) * minute := hlt
    unfold minute at htime
    omega
  refine mem_readable.mpr ⟨?_, complete_steady le_rfl⟩
  refine (Backlog.mem_batch_iff (nodup_times_pending hkeys) hpending).mpr ?_
  exact (List.length_eq_zero_iff.mpr hbefore).trans_lt (by decide)

section Steady

variable (n : ℕ) (t : ℤ) (b : Bundle ℝ)

/-- `n` minutes of steady candles are handled by the instant `t`, and forecast. -/
noncomputable def steadyWorld : World ℝ :=
  forecastedWorld realNumerics t (steady "BTCUSDT" n) b

theorem reachable_steadyWorld : Reachable realNumerics (steadyWorld n t b) :=
  reachable_forecastedWorld realNumerics t (steady "BTCUSDT" n) b

@[simp] theorem prices_steadyWorld :
    (steadyWorld n t b).market.prices = steady "BTCUSDT" n := prices_steady "BTCUSDT" n

@[simp] theorem stream_steadyWorld :
    (steadyWorld n t b).market.stream = steady "BTCUSDT" n := rfl

@[simp] theorem clock_steadyWorld : (steadyWorld n t b).clock = t := rfl

variable {n}

theorem mem_readable_turnWorld (hn : 61 < n) :
    rowFor realNumerics (steady "BTCUSDT" 61) (steadyCandle "BTCUSDT" 61) ∈
      readable ((turnWorld realNumerics t (steady "BTCUSDT" n)).visit (some b)) [] "BTCUSDT" := by
  have hfeatures := features_steady "BTCUSDT" n
  refine mem_readable_steady (nodup_features realNumerics _) (fun f => ?_) hn
  show f ∈ (consume realNumerics (steady "BTCUSDT" n)).features ∧ _ ↔ _
  rw [hfeatures]
  refine and_iff_left_of_imp fun hf => ?_
  obtain ⟨i, _, _, rfl⟩ := mem_steadyRows.mp hf
  rfl

theorem mem_keys_steadyWorld (hn : 61 < n) :
    ("BTCUSDT", 61 * minute) ∈ (steadyWorld n t b).forecasts.map ForecastRow.key :=
  mem_keys_inferSymbol.mpr (Or.inr ⟨rfl, _, mem_readable_turnWorld t b hn, rfl⟩)

/-- With five more minutes they get a realized volatility. -/
theorem exists_realized_steady :
    ∃ r ∈ (steadyWorld 68 (67 * minute) b).forecasts, r.realizedVol.isSome := by
  have hkeys : ((floats (steady "BTCUSDT" 68)).map PriceRow.key).Nodup := by
    rw [keys_floats, ← prices_steady]
    exact Restart.nodup_prices realNumerics _
  have hclose : ∀ r ∈ floats (steady "BTCUSDT" 68), ∃ c, 0 < c ∧ r.close = .fin c := by
    intro r hr
    obtain ⟨c, hc, rfl⟩ := List.mem_map.mp hr
    exact ⟨c.close, (valid_steady c hc).close_pos, rfl⟩
  have hrows : EnoughRows (floats (steady "BTCUSDT" 68)) "BTCUSDT" (61 * minute) := by
    unfold EnoughRows floats steady
    rw [List.filter_map, List.length_map, List.filter_map, List.length_map]
    refine ⟨?_, by decide⟩
    rw [List.map_map, List.map_map]
    exact List.mem_map.mpr ⟨61, List.mem_range.mpr (by decide), rfl⟩
  obtain ⟨closes, _, hlabel⟩ :=
    aheadLabel_closes realFunctions_realNumerics hclose "BTCUSDT" (61 * minute)
  have hsome : labelAt realNumerics (timedCloses ((floats (consume realNumerics
      (steady "BTCUSDT" 68)).prices).filter fun r => r.symbol = "BTCUSDT")) (61 * minute) =
        some (.fin (logVol closes)) := by
    rw [prices_steady, labelAt_prices _ hkeys]
    exact (hlabel _).mpr ⟨hrows, rfl⟩
  obtain ⟨r, hr, hvol⟩ :=
    exists_realized (mem_readable_turnWorld (n := 68) (67 * minute) b (by decide)) (by decide) hsome
  exact ⟨r, hr, by rw [hvol]; rfl⟩

end Steady

/-- 68 minutes of candles, with features and forecasts. -/
theorem integrity_steady : ("BTCUSDT", 61 * minute) ∈
      (steadyWorld 68 (67 * minute) steadyBundle).forecasts.map ForecastRow.key ∧
    Integrity (steadyWorld 68 (67 * minute) steadyBundle) :=
  ⟨mem_keys_steadyWorld _ _ (by decide), integrity (reachable_steadyWorld _ _ _)⟩

end PortfolioEngine.Pipeline
