import PortfolioEngine.Features.RealNumerics
import PortfolioEngine.Forecasting.Inference
import PortfolioEngine.Lib.Runs

/-!
# The inference queue

The features without a forecast are a queue that `run_inference` reads through a limit. A complete
row that is read gets a forecast and leaves it; an incomplete one stays at its place.

1. `queue_progress_iff`: a cycle makes progress if fewer than `queryLimit` incomplete rows are
   before the first complete one, and otherwise no later cycle does either.
2. `model_failure_iff`: a stored row has no volatility exactly if both models have failed in one
   turn that reads a complete row.
-/

namespace PortfolioEngine.Forecasting

open Tables Features

variable {K : Type*}

/-! ## The keys of `forecasts` -/

section Keys

variable {symbol : Symbol} {visit : Visit K} {forecasts : List (ForecastRow K)}

theorem mem_pending {features : List (FeatureRow K)} {f : FeatureRow K} :
    f ∈ pending features forecasts symbol ↔
      f ∈ features ∧ f.symbol = symbol ∧ f.key ∉ forecasts.map ForecastRow.key := by
  simp [pending]

theorem mem_readable {f : FeatureRow K} : f ∈ readable visit forecasts symbol ↔
    f ∈ fetchUnforecastedFeatures visit.features forecasts symbol queryLimit ∧ Complete f := by
  simp [readable]

theorem pending_of_readable {f : FeatureRow K} (h : f ∈ readable visit forecasts symbol) :
    f ∈ pending visit.features forecasts symbol :=
  Backlog.mem_of_mem_batch (mem_readable.mp h).1

theorem length_xgbPreds (bundle : Bundle K) (valid : List (FeatureRow K)) :
    (xgbPreds bundle valid).length = valid.length := by
  unfold xgbPreds
  split
  next ys h => rw [List.length_map, bundle.length_xgb h, List.length_map]
  next => rw [List.length_replicate]

theorem keys_preds (bundle : Bundle K) {valid : List (FeatureRow K)}
    (h : ∀ f ∈ valid, f.symbol = symbol) :
    (preds symbol bundle valid).map ForecastRow.key = valid.map FeatureRow.key := by
  have hzip : ∀ os : List (Option (Flt K)), os.length = valid.length →
      (List.zipWith (fun row xgbVol => ForecastRow.key
        ⟨row.time, symbol, bundle.garch, xgbVol, none⟩) valid os) = valid.map FeatureRow.key := by
    induction valid with
    | nil => intro os _; rfl
    | cons f valid ih =>
      intro os hos
      cases os with
      | nil => cases hos
      | cons o os =>
        rw [List.zipWith_cons_cons, List.map_cons,
          ih (fun g hg => h g (List.mem_cons_of_mem f hg)) os (Nat.succ.inj hos)]
        congr 1
        exact Prod.ext (h f List.mem_cons_self).symm rfl
  unfold preds
  rw [List.map_zipWith]
  exact hzip _ (length_xgbPreds bundle valid)

theorem mem_keys_insertForecasts {rows : List (ForecastRow K)} {key : Symbol × ℤ} :
    key ∈ (insertForecasts rows forecasts).map ForecastRow.key ↔
      key ∈ forecasts.map ForecastRow.key ∨ key ∈ rows.map ForecastRow.key := by
  unfold insertForecasts
  induction rows generalizing forecasts with
  | nil => simp
  | cons r rows ih =>
    rw [List.foldl_cons, ih, List.map_cons, List.mem_cons, ← or_assoc]
    refine or_congr_left ?_
    constructor
    · intro h
      obtain ⟨x, hx, rfl⟩ := List.mem_map.mp h
      rcases mem_insertNew.mp hx with hx | ⟨_, rfl⟩
      · exact Or.inl (List.mem_map_of_mem hx)
      · exact Or.inr rfl
    · rintro (h | rfl)
      · exact ((prefix_insertNew ForecastRow.key r forecasts).map _).subset h
      · exact mem_keys_insertNew ForecastRow.key r forecasts

theorem keys_eq_of_predicted {t t' : List (ForecastRow K)}
    (h : t.map ForecastRow.predicted = t'.map ForecastRow.predicted) :
    t.map ForecastRow.key = t'.map ForecastRow.key := by
  have hkeys := congrArg (List.map Prod.fst) h
  rwa [List.map_map, List.map_map] at hkeys

theorem pending_congr {features : List (FeatureRow K)} {t t' : List (ForecastRow K)}
    (h : ∀ time, (symbol, time) ∈ t.map ForecastRow.key ↔ (symbol, time) ∈ t'.map ForecastRow.key) :
    pending features t symbol = pending features t' symbol := by
  unfold pending
  refine List.filter_congr fun f _ => ?_
  rw [decide_eq_decide]
  refine and_congr_right fun hf => not_congr ?_
  subst hf
  exact h f.time

theorem nodup_times_pending {features : List (FeatureRow K)} {forecasts : List (ForecastRow K)}
    (h : (features.map FeatureRow.key).Nodup) :
    ((pending features forecasts symbol).map FeatureRow.time).Nodup := by
  refine List.Nodup.map_on (fun x hx y hy hxy => ?_) ((h.of_map _).filter _)
  obtain ⟨hx, hxs, _⟩ := mem_pending.mp hx
  obtain ⟨hy, hys, _⟩ := mem_pending.mp hy
  exact eq_of_key_eq h hx hy (Prod.ext (hxs.trans hys.symm) hxy)

variable [Field K] [LinearOrder K] {P : Numerics K}

theorem mem_keys_inferSymbol {key : Symbol × ℤ} :
    key ∈ (inferSymbol P symbol visit forecasts).map ForecastRow.key ↔
      key ∈ forecasts.map ForecastRow.key ∨
        visit.bundle.isSome ∧ ∃ f ∈ readable visit forecasts symbol, f.key = key := by
  have hturn := predicted_inferSymbol P symbol visit forecasts
  cases hbundle : visit.bundle with
  | none =>
    rw [hbundle] at hturn
    rw [keys_eq_of_predicted hturn]
    simp
  | some bundle =>
    rw [hbundle] at hturn
    rw [keys_eq_of_predicted hturn, mem_keys_insertForecasts, keys_preds, List.mem_map]
    · simp
    · exact fun f hf => (mem_pending.mp (pending_of_readable hf)).2.1

theorem mem_keys_of_ne {key : Symbol × ℤ} (h : key.1 ≠ symbol) :
    key ∈ (inferSymbol P symbol visit forecasts).map ForecastRow.key ↔
      key ∈ forecasts.map ForecastRow.key := by
  rw [mem_keys_inferSymbol]
  refine or_iff_left ?_
  rintro ⟨_, f, hf, rfl⟩
  exact h (mem_pending.mp (pending_of_readable hf)).2.1

theorem mem_keys_foldl_of_not_mem {visits : Symbol → Visit K} {key : Symbol × ℤ}
    {turns : List Symbol} (h : key.1 ∉ turns) :
    key ∈ (turns.foldl (fun t s => inferSymbol P s (visits s) t) forecasts).map ForecastRow.key ↔
      key ∈ forecasts.map ForecastRow.key := by
  induction turns generalizing forecasts with
  | nil => rfl
  | cons s turns ih =>
    rw [List.foldl_cons, ih fun hc => h (List.mem_cons_of_mem s hc)]
    exact mem_keys_of_ne fun hc => h (hc ▸ List.mem_cons_self)

theorem mem_keys_runInference {visits : Symbol → Visit K} (hs : symbol ∈ symbols) {time : ℤ} :
    (symbol, time) ∈ (runInference P visits forecasts).map ForecastRow.key ↔
      (symbol, time) ∈ forecasts.map ForecastRow.key ∨ (visits symbol).bundle.isSome ∧
        ∃ f ∈ readable (visits symbol) forecasts symbol, f.key = (symbol, time) := by
  have hnodup : symbols.Nodup := by decide
  obtain ⟨before, after, hsplit⟩ := List.append_of_mem hs
  rw [hsplit, List.nodup_append, List.nodup_cons] at hnodup
  have hbefore : symbol ∉ before := fun h => hnodup.2.2 _ h _ List.mem_cons_self rfl
  set t := before.foldl (fun t s => inferSymbol P s (visits s) t) forecasts with ht
  have hkeys : ∀ time, (symbol, time) ∈ t.map ForecastRow.key ↔
      (symbol, time) ∈ forecasts.map ForecastRow.key :=
    fun time => mem_keys_foldl_of_not_mem hbefore
  have hread : readable (visits symbol) t symbol = readable (visits symbol) forecasts symbol := by
    unfold readable fetchUnforecastedFeatures
    rw [pending_congr hkeys]
  unfold runInference
  rw [hsplit, List.foldl_append, List.foldl_cons, mem_keys_foldl_of_not_mem hnodup.2.1.1,
    mem_keys_inferSymbol, ← ht, hkeys, hread]

end Keys

/-! ## Progress -/

section Progress

variable [Field K] [LinearOrder K] {P : Numerics K} {symbol : Symbol}

/-- The table after `n` cycles. -/
def cycles (P : Numerics K) (visits : ℕ → Symbol → Visit K) (forecasts : List (ForecastRow K)) :
    ℕ → List (ForecastRow K)
  | 0 => forecasts
  | n + 1 => runInference P (visits n) (cycles P visits forecasts n)

/-- A forecast of `symbol` is stored that was not there. -/
def StoresNew (symbol : Symbol) (t t' : List (ForecastRow K)) : Prop :=
  ∃ time, (symbol, time) ∈ t'.map ForecastRow.key ∧ (symbol, time) ∉ t.map ForecastRow.key

/-- The incomplete features of the queue before `x`. -/
def blockers (queue : List (FeatureRow K)) (x : FeatureRow K) : List (FeatureRow K) :=
  Backlog.blockers FeatureRow.time Complete x queue

theorem storesNew_iff {visits : Symbol → Visit K} {forecasts : List (ForecastRow K)}
    (hs : symbol ∈ symbols) (hbundle : (visits symbol).bundle.isSome) :
    StoresNew symbol forecasts (runInference P visits forecasts) ↔
      ∃ f ∈ fetchUnforecastedFeatures (visits symbol).features forecasts symbol queryLimit,
        Complete f := by
  constructor
  · rintro ⟨time, hnew, hold⟩
    obtain ⟨_, f, hf, _⟩ := ((mem_keys_runInference hs).mp hnew).resolve_left hold
    exact ⟨f, mem_readable.mp hf⟩
  · rintro ⟨f, hf⟩
    have hf := mem_readable.mpr hf
    obtain ⟨_, hsym, hnone⟩ := mem_pending.mp (pending_of_readable hf)
    subst hsym
    exact ⟨f.time, (mem_keys_runInference hs).mpr (Or.inr ⟨hbundle, f, hf, rfl⟩), hnone⟩

/-- Up to `T` the table `features` stays as it is. -/
def SettledUpTo (symbol : Symbol) (visits : ℕ → Symbol → Visit K) (T : ℤ) : Prop :=
  ∀ n f, f.symbol = symbol → f.time ≤ T →
    (f ∈ (visits n symbol).features ↔ f ∈ (visits 0 symbol).features)

variable {visits : ℕ → Symbol → Visit K} {forecasts : List (ForecastRow K)} {T : ℤ}

/-- Cycle after cycle, the queue of a symbol is a backlog that is read in batches. -/
theorem drains_pending (hs : symbol ∈ symbols) (hbundle : ∀ n, (visits n symbol).bundle.isSome)
    (hkeys : ∀ n, ((visits n symbol).features.map FeatureRow.key).Nodup)
    (hT : SettledUpTo symbol visits T) :
    Backlog.Drains FeatureRow.time (Complete (K := K)) queryLimit T fun n =>
      pending (visits n symbol).features (cycles P visits forecasts n) symbol where
  nodup n := nodup_times_pending (hkeys n)
  step n x hx := by
    set t := cycles P visits forecasts n with ht
    -- the rows read are the complete ones of the batch, as each key has one row
    have hread : (∃ f ∈ readable (visits n symbol) t symbol, f.key = x.key) ∧
        x ∈ pending (visits n symbol).features t symbol ↔
        Complete x ∧ x ∈ fetchUnforecastedFeatures (visits n symbol).features t symbol
          queryLimit := by
      constructor
      · rintro ⟨⟨f, hf, hkey⟩, hx⟩
        have hmem := (mem_pending.mp (pending_of_readable hf)).1
        obtain rfl := eq_of_key_eq (hkeys n) hmem (mem_pending.mp hx).1 hkey
        exact (mem_readable.mp hf).symm
      · intro hc
        have hxr := mem_readable.mpr hc.symm
        exact ⟨⟨x, hxr, rfl⟩, pending_of_readable hxr⟩
    have hnext : cycles P visits forecasts (n + 1) = runInference P (visits n) t := rfl
    rw [mem_pending, mem_pending, hnext]
    by_cases hsym : x.symbol = symbol
    · have hfeatures := (hT (n + 1) x hsym hx).trans (hT n x hsym hx).symm
      have hkey : x.key = (symbol, x.time) := Prod.ext hsym rfl
      rw [hkey, mem_keys_runInference hs, ← hkey, hfeatures]
      constructor
      · rintro ⟨hmem, _, hnot⟩
        refine ⟨⟨hmem, hsym, fun hc => hnot (Or.inl hc)⟩, fun hc => hnot (Or.inr ?_)⟩
        exact ⟨hbundle n, (hread.mpr hc).1⟩
      · rintro ⟨⟨hmem, _, hnot⟩, hbatch⟩
        refine ⟨hmem, hsym, ?_⟩
        rintro (hc | ⟨_, hc⟩)
        · exact hnot hc
        · exact hbatch (hread.mp ⟨hc, mem_pending.mpr ⟨hmem, hsym, hnot⟩⟩)
    · constructor
      · exact fun h => absurd h.2.1 hsym
      · exact fun h => absurd h.1.2.1 hsym

theorem not_mem_pending_iff (hT : SettledUpTo symbol visits T) {x : FeatureRow K}
    (hx : x ∈ pending (visits 0 symbol).features forecasts symbol) (hxT : x.time ≤ T) (n : ℕ) :
    x ∉ pending (visits n symbol).features (cycles P visits forecasts n) symbol ↔
      x.key ∈ (cycles P visits forecasts n).map ForecastRow.key := by
  obtain ⟨hmem, hsym, _⟩ := mem_pending.mp hx
  have hmem := (hT n x hsym hxT).mpr hmem
  rw [mem_pending]
  simp [hmem, hsym]

/-- **Progress of the queue.** A cycle stores a forecast whenever there is a complete row, if and
only if fewer than `queryLimit` incomplete rows are before one of them; and all complete rows get a
forecast in finitely many cycles, if and only if fewer than `queryLimit` incomplete rows are before
each of them. -/
theorem queue_progress_iff (P : Numerics K) (hs : symbol ∈ symbols)
    (hbundle : ∀ n, (visits n symbol).bundle.isSome)
    (hkeys : ∀ n, ((visits n symbol).features.map FeatureRow.key).Nodup)
    (hT : SettledUpTo symbol visits T) (forecasts : List (ForecastRow K)) :
    let queue := pending (visits 0 symbol).features forecasts symbol
    (((∃ x ∈ queue, Complete x) →
        StoresNew symbol forecasts (runInference P (visits 0) forecasts)) ↔
      ((∃ x ∈ queue, Complete x) →
        ∃ x ∈ queue, Complete x ∧ (blockers queue x).length < queryLimit)) ∧
    ((∃ n, ∀ x ∈ queue, x.time ≤ T → Complete x →
        x.key ∈ (cycles P visits forecasts n).map ForecastRow.key) ↔
      ∀ x ∈ queue, x.time ≤ T → Complete x → (blockers queue x).length < queryLimit) := by
  intro queue
  have hdrains : Backlog.Drains FeatureRow.time (Complete (K := K)) queryLimit T fun n =>
      pending (visits n symbol).features (cycles P visits forecasts n) symbol :=
    drains_pending hs hbundle hkeys hT
  refine ⟨imp_congr_right fun _ => ?_, ?_⟩
  · rw [storesNew_iff hs (hbundle 0)]
    exact Backlog.batch_serves_iff (hdrains.nodup 0)
  · refine Iff.trans (exists_congr fun n => ?_) hdrains.drained_iff
    refine forall₂_congr fun x hx => forall₂_congr fun hxT _ => ?_
    exact (not_mem_pending_iff hT hx hxT n).symm

/-! The failing case: the whole batch is incomplete. -/

/-- As many incomplete rows as the query returns, one a minute. -/
noncomputable def incompleteRows : List (FeatureRow ℝ) :=
  (List.range queryLimit).map fun i : ℕ =>
    ⟨i * minute, "BTCUSDT", List.replicate featureCols.length none⟩

/-- The complete row of the next minute. -/
noncomputable def waitingRow : FeatureRow ℝ :=
  ⟨queryLimit * minute, "BTCUSDT", List.replicate featureCols.length (some (.fin 0))⟩

/-- Models that always answer. -/
noncomputable def steadyBundle : Bundle ℝ where
  garch := some (.fin 1)
  xgb X := some (X.map fun _ => .fin 1)
  length_xgb h := by rw [← Option.some.inj h, List.length_map]

noncomputable def blockedVisit : Visit ℝ where
  bundle := some steadyBundle
  features := incompleteRows ++ [waitingRow]
  prices := []
  now := queryLimit * minute

theorem complete_waitingRow : Complete waitingRow := by
  intro v hv
  rw [List.eq_of_mem_replicate hv]
  rfl

theorem not_complete_of_mem {f : FeatureRow ℝ} (hf : f ∈ incompleteRows) : ¬ Complete f := by
  obtain ⟨i, _, rfl⟩ := List.mem_map.mp hf
  intro h
  have hnone := h none (List.mem_replicate.mpr ⟨by decide, rfl⟩)
  cases hnone

theorem pending_blockedVisit : pending blockedVisit.features [] "BTCUSDT" =
    incompleteRows ++ [waitingRow] := by
  refine List.filter_eq_self.mpr fun f hf => decide_eq_true ⟨?_, List.not_mem_nil⟩
  rcases List.mem_append.mp hf with hf | hf
  · obtain ⟨i, _, rfl⟩ := List.mem_map.mp hf
    rfl
  · rw [List.mem_singleton.mp hf]
    rfl

theorem time_lt_waitingRow {f : FeatureRow ℝ} (hf : f ∈ incompleteRows) :
    f.time < waitingRow.time := by
  obtain ⟨i, hi, rfl⟩ := List.mem_map.mp hf
  have hi : (i : ℤ) < (queryLimit : ℕ) := Int.ofNat_lt.mpr (List.mem_range.mp hi)
  exact mul_lt_mul_of_pos_right hi (by decide)

theorem blockers_waitingRow :
    blockers (incompleteRows ++ [waitingRow]) waitingRow = incompleteRows := by
  have hbefore : Backlog.before FeatureRow.time waitingRow (incompleteRows ++ [waitingRow]) =
      incompleteRows := by
    have hlast : [waitingRow].filter (fun f => f.time < waitingRow.time) = [] := by
      refine List.filter_eq_nil_iff.mpr fun f hf => ?_
      rw [List.mem_singleton.mp hf]
      simp
    unfold Backlog.before
    rw [List.filter_append, hlast, List.append_nil]
    exact List.filter_eq_self.mpr fun f hf => decide_eq_true (time_lt_waitingRow hf)
  unfold blockers Backlog.blockers
  rw [hbefore]
  exact List.filter_eq_self.mpr fun f hf => decide_eq_true (not_complete_of_mem hf)

theorem keys_blockedVisit : (blockedVisit.features.map FeatureRow.key).Nodup := by
  have hkeys : blockedVisit.features.map FeatureRow.key =
      (List.range (queryLimit + 1)).map fun i : ℕ => ("BTCUSDT", (i : ℤ) * minute) := by
    rw [List.range_succ, List.map_append]
    unfold blockedVisit incompleteRows
    rw [List.map_append, List.map_map]
    rfl
  rw [hkeys]
  refine List.Nodup.map (fun i j hij => ?_) List.nodup_range
  have hmul : (i : ℤ) * minute = j * minute := (Prod.mk.inj hij).2
  unfold minute at hmul
  omega

/-- A complete row waits behind `queryLimit` incomplete ones and the cycle stores nothing. -/
theorem blockedVisit_stores_nothing :
    (∃ x ∈ pending blockedVisit.features [] "BTCUSDT", Complete x) ∧
    ¬ StoresNew "BTCUSDT" [] (runInference realNumerics (fun _ => blockedVisit) []) := by
  rw [storesNew_iff (by decide) rfl]
  unfold fetchUnforecastedFeatures
  rw [Backlog.batch_serves_iff (nodup_times_pending keys_blockedVisit), pending_blockedVisit]
  refine ⟨⟨waitingRow, by simp, complete_waitingRow⟩, ?_⟩
  rintro ⟨x, hx, hok, hfew⟩
  rcases List.mem_append.mp hx with hx | hx
  · exact not_complete_of_mem hx hok
  · rw [List.mem_singleton.mp hx] at hfew
    have hblockers := congrArg List.length blockers_waitingRow
    unfold blockers at hblockers
    rw [hblockers] at hfew
    simp [incompleteRows] at hfew

/-- The theorem at the failing case. -/
theorem queue_progress_iff_blocked :
    let queue := pending blockedVisit.features [] "BTCUSDT"
    let visits : ℕ → Symbol → Visit ℝ := fun _ _ => blockedVisit
    (((∃ x ∈ queue, Complete x) →
        StoresNew "BTCUSDT" [] (runInference realNumerics (visits 0) [])) ↔
      ((∃ x ∈ queue, Complete x) →
        ∃ x ∈ queue, Complete x ∧ (blockers queue x).length < queryLimit)) ∧
    ((∃ n, ∀ x ∈ queue, x.time ≤ waitingRow.time → Complete x →
        x.key ∈ (cycles realNumerics visits [] n).map ForecastRow.key) ↔
      ∀ x ∈ queue, x.time ≤ waitingRow.time → Complete x →
        (blockers queue x).length < queryLimit) :=
  @queue_progress_iff ℝ _ _ "BTCUSDT" (fun _ _ => blockedVisit) waitingRow.time realNumerics
    (by decide) (fun _ => rfl) (fun _ => keys_blockedVisit) (fun _ _ _ _ => Iff.rfl) []

end Progress

/-! ## Failures of the models -/

section Failure

/-- Every row has one of the two volatilities. -/
def Filled (t : List (ForecastRow K)) : Prop := ∀ r ∈ t, r.garchVol.isSome ∨ r.xgbVol.isSome

/-- Both models fail in a turn that reads a complete row. -/
def LosesRow (symbol : Symbol) (visit : Visit K) (forecasts : List (ForecastRow K)) : Prop :=
  ∃ bundle, visit.bundle = some bundle ∧ readable visit forecasts symbol ≠ [] ∧
    bundle.garch = none ∧
    bundle.xgb ((readable visit forecasts symbol).map FeatureRow.values) = none

variable {symbol : Symbol} {visit : Visit K} {t : List (ForecastRow K)} {bundle : Bundle K}
  {valid : List (FeatureRow K)}

theorem filled_of_predicted {t' : List (ForecastRow K)}
    (h : t.map ForecastRow.predicted = t'.map ForecastRow.predicted) : Filled t ↔ Filled t' := by
  have hmap : ∀ t : List (ForecastRow K), Filled t ↔
      ∀ p ∈ t.map ForecastRow.predicted, p.2.1.isSome ∨ p.2.2.isSome := by
    intro t
    rw [List.forall_mem_map]
    rfl
  rw [hmap, hmap, h]

theorem mem_of_mem_insertForecasts {rows : List (ForecastRow K)} {r : ForecastRow K}
    (h : r ∈ insertForecasts rows t) : r ∈ t ∨ r ∈ rows := by
  unfold insertForecasts at h
  induction rows generalizing t with
  | nil => exact Or.inl h
  | cons x rows ih =>
    rcases ih h with h | h
    · rcases mem_insertNew.mp h with h | ⟨_, rfl⟩
      · exact Or.inl h
      · exact Or.inr List.mem_cons_self
    · exact Or.inr (List.mem_cons_of_mem x h)

theorem prefix_insertForecasts (rows t : List (ForecastRow K)) : t <+: insertForecasts rows t := by
  unfold insertForecasts
  induction rows generalizing t with
  | nil => exact List.prefix_refl t
  | cons x rows ih => exact (prefix_insertNew ForecastRow.key x t).trans (ih _)

theorem mem_preds {r : ForecastRow K} (h : r ∈ preds symbol bundle valid) :
    r.garchVol = bundle.garch ∧ r.xgbVol ∈ xgbPreds bundle valid := by
  unfold preds at h
  rw [← List.map_uncurry_zip_eq_zipWith] at h
  obtain ⟨⟨f, o⟩, hfo, rfl⟩ := List.mem_map.mp h
  exact ⟨rfl, (List.of_mem_zip hfo).2⟩

theorem symbol_of_mem_preds {r : ForecastRow K} (h : r ∈ preds symbol bundle valid) :
    r.symbol = symbol := by
  unfold preds at h
  rw [← List.map_uncurry_zip_eq_zipWith] at h
  obtain ⟨_, _, rfl⟩ := List.mem_map.mp h
  rfl

theorem realizedVol_preds {r : ForecastRow K} (h : r ∈ preds symbol bundle valid) :
    r.realizedVol = none := by
  unfold preds at h
  rw [← List.map_uncurry_zip_eq_zipWith] at h
  obtain ⟨_, _, rfl⟩ := List.mem_map.mp h
  rfl

/-- The predictions are filled unless there are some and both models have failed. -/
theorem filled_preds (h : valid ≠ [] → bundle.garch = none →
    bundle.xgb (valid.map FeatureRow.values) ≠ none) : Filled (preds symbol bundle valid) := by
  intro r hr
  obtain ⟨hgarch, hxgb⟩ := mem_preds hr
  have hvalid : valid ≠ [] := by
    rintro rfl
    cases hr
  cases hg : bundle.garch with
  | some v => rw [hgarch, hg]; exact Or.inl rfl
  | none =>
    obtain ⟨ys, hys⟩ := Option.ne_none_iff_exists'.mp (h hvalid hg)
    unfold xgbPreds at hxgb
    rw [hys] at hxgb
    obtain ⟨y, _, hy⟩ := List.mem_map.mp hxgb
    rw [← hy]
    exact Or.inr rfl

theorem empty_of_mem_preds {r : ForecastRow K} (hgarch : bundle.garch = none)
    (hxgb : bundle.xgb (valid.map FeatureRow.values) = none) (h : r ∈ preds symbol bundle valid) :
    r.garchVol = none ∧ r.xgbVol = none := by
  obtain ⟨hg, hx⟩ := mem_preds h
  unfold xgbPreds at hx
  rw [hxgb] at hx
  exact ⟨hg.trans hgarch, List.eq_of_mem_replicate hx⟩

variable [Field K] [LinearOrder K]

theorem inferSymbol_of_not_readable (P : Numerics K) {b : Bundle K} (hb : visit.bundle = some b)
    (hread : readable visit t symbol = []) :
    inferSymbol P symbol visit t =
      backfillRealizedVol P symbol visit.prices visit.now t := by
  have hvalid : (fetchUnforecastedFeatures visit.features t symbol queryLimit).filter
      (fun f => Complete f) = [] := hread
  unfold inferSymbol
  rw [hb]
  dsimp only
  rw [hvalid]
  split_ifs <;> rfl

/-- A turn that reads complete features inserts their forecasts, and then fills in. -/
theorem inferSymbol_of_readable (P : Numerics K) {b : Bundle K} (hb : visit.bundle = some b)
    (hne : readable visit t symbol ≠ []) :
    inferSymbol P symbol visit t = backfillRealizedVol P symbol visit.prices visit.now
      (insertForecasts (preds symbol b (readable visit t symbol)) t) := by
  have hdf : fetchUnforecastedFeatures visit.features t symbol queryLimit ≠ [] := by
    intro hnil
    unfold readable at hne
    rw [hnil] at hne
    exact hne rfl
  unfold inferSymbol
  rw [hb]
  dsimp only
  rw [if_neg (by rwa [List.isEmpty_iff]), if_neg (by rwa [List.isEmpty_iff])]
  rfl

theorem filled_inferSymbol (P : Numerics K) :
    Filled (inferSymbol P symbol visit t) ↔ Filled t ∧ ¬ LosesRow symbol visit t := by
  have hturn := predicted_inferSymbol P symbol visit t
  cases hbundle : visit.bundle with
  | none =>
    rw [hbundle] at hturn
    rw [filled_of_predicted hturn]
    refine (and_iff_left ?_).symm
    rintro ⟨b, hb, _⟩
    exact absurd (hbundle.symm.trans hb) nofun
  | some bundle =>
    rw [hbundle] at hturn
    rw [filled_of_predicted hturn]
    set valid := readable visit t symbol with hvalid
    constructor
    · intro hfilled
      refine ⟨fun r hr => hfilled r ((prefix_insertForecasts _ t).subset hr), ?_⟩
      rintro ⟨b, hb, hne, hgarch, hxgb⟩
      obtain rfl := Option.some.inj (hbundle.symm.trans hb)
      obtain ⟨f, hf⟩ := List.exists_mem_of_ne_nil _ hne
      -- the row stored for `f` is one of the predictions, which are empty
      have hkey : f.key ∈ (insertForecasts (preds symbol bundle valid) t).map ForecastRow.key := by
        rw [mem_keys_insertForecasts, keys_preds]
        · exact Or.inr (List.mem_map_of_mem hf)
        · exact fun g hg => (mem_pending.mp (pending_of_readable hg)).2.1
      obtain ⟨r, hr, hrf⟩ := List.mem_map.mp hkey
      have hnew : r ∉ t := fun hrt =>
        (mem_pending.mp (pending_of_readable hf)).2.2 (hrf ▸ List.mem_map_of_mem hrt)
      have hpred := (mem_of_mem_insertForecasts hr).resolve_left hnew
      obtain ⟨hg, hx⟩ := empty_of_mem_preds hgarch hxgb hpred
      have hsome := hfilled r hr
      rw [hg, hx] at hsome
      simp at hsome
    · rintro ⟨hfilled, hkeeps⟩ r hr
      rcases mem_of_mem_insertForecasts hr with hr | hr
      · exact hfilled r hr
      · refine filled_preds (fun hne hgarch hxgb => hkeeps ?_) r hr
        exact ⟨bundle, hbundle, hne, hgarch, hxgb⟩

/-- The turns of a run of cycles. -/
def turns (cycles : List (Symbol → Visit K)) : List (Symbol × Visit K) :=
  cycles.flatMap fun visits => symbols.map fun s => (s, visits s)

/-- A turn as a step. -/
def turn (P : Numerics K) (t : List (ForecastRow K)) (v : Symbol × Visit K) :
    Option (List (ForecastRow K)) :=
  some (inferSymbol P v.1 v.2 t)

/-- The table after the cycles, from the empty one. -/
def afterCycles (P : Numerics K) (cycles : List (Symbol → Visit K)) : List (ForecastRow K) :=
  cycles.foldl (fun t visits => runInference P visits t) []

theorem run_turns (P : Numerics K) (cycles : List (Symbol → Visit K)) :
    Runs.run (turn P) [] (turns cycles) = some (afterCycles P cycles) := by
  have hcycle : ∀ (t : List (ForecastRow K)) (visits : Symbol → Visit K) (ss : List Symbol),
      Runs.run (turn P) t (ss.map fun s => (s, visits s)) =
        some (ss.foldl (fun t s => inferSymbol P s (visits s) t) t) := by
    intro t visits ss
    induction ss generalizing t with
    | nil => rfl
    | cons s ss ih => exact ih (inferSymbol P s (visits s) t)
  have hall : ∀ t : List (ForecastRow K), Runs.run (turn P) t (turns cycles) =
      some (cycles.foldl (fun t visits => runInference P visits t) t) := by
    induction cycles with
    | nil => intro t; rfl
    | cons visits cycles ih =>
      intro t
      unfold turns at ih ⊢
      rw [List.flatMap_cons, Runs.run_append, hcycle, Option.bind_some]
      exact ih _
  exact hall []

/-- **A model failure.** Over every run of cycles from the empty table, each row has a volatility
if and only if no turn that reads a complete row has both models fail. -/
theorem model_failure_iff (P : Numerics K) (cycles : List (Symbol → Visit K)) :
    (∀ r ∈ afterCycles P cycles, r.garchVol.isSome ∨ r.xgbVol.isSome) ↔
      Runs.Along (turn P) (fun t v => ¬ LosesRow v.1 v.2 t) [] (turns cycles) := by
  have hstep : ∀ t v t', turn P t v = some t' → (Filled t' ↔ Filled t ∧ ¬ LosesRow v.1 v.2 t) := by
    intro t v t' h
    rw [← Option.some.inj h]
    exact filled_inferSymbol P
  have hempty : Filled ([] : List (ForecastRow K)) := fun r hr => absurd hr List.not_mem_nil
  exact (Runs.run_iff_along hstep (run_turns P cycles)).trans (and_iff_right hempty)

/-- Models that always fail. -/
noncomputable def failingBundle : Bundle ℝ where
  garch := none
  xgb _ := none
  length_xgb h := by cases h

/-- One complete row, and a cycle in which both models of its symbol fail. -/
noncomputable def failingCycle (s : Symbol) : Visit ℝ where
  bundle := if s = "BTCUSDT" then some failingBundle else none
  features := [waitingRow]
  prices := []
  now := queryLimit * minute

theorem readable_failingCycle : readable (failingCycle "BTCUSDT") [] "BTCUSDT" = [waitingRow] := by
  have hpending : pending (failingCycle "BTCUSDT").features [] "BTCUSDT" = [waitingRow] := by
    refine List.filter_eq_self.mpr fun f hf => decide_eq_true ⟨?_, List.not_mem_nil⟩
    rw [List.mem_singleton.mp hf]
    rfl
  unfold readable fetchUnforecastedFeatures
  rw [hpending]
  refine List.filter_eq_self.mpr fun f hf => decide_eq_true ?_
  rw [List.mem_singleton.mp (Backlog.mem_of_mem_batch hf)]
  exact complete_waitingRow

/-- The row is stored without a volatility. -/
theorem failingCycle_loses_row :
    ¬ ∀ r ∈ afterCycles realNumerics [failingCycle], r.garchVol.isSome ∨ r.xgbVol.isSome := by
  intro hall
  have hlast : Filled (inferSymbol realNumerics "SOLUSDT" (failingCycle "SOLUSDT")
      (inferSymbol realNumerics "ETHUSDT" (failingCycle "ETHUSDT")
        (inferSymbol realNumerics "BTCUSDT" (failingCycle "BTCUSDT") []))) := hall
  have hsecond := ((filled_inferSymbol realNumerics).mp hlast).1
  have hfirst := ((filled_inferSymbol realNumerics).mp hsecond).1
  refine ((filled_inferSymbol realNumerics).mp hfirst).2 ⟨failingBundle, rfl, ?_, rfl, rfl⟩
  rw [readable_failingCycle]
  exact List.cons_ne_nil _ _

end Failure

end PortfolioEngine.Forecasting
