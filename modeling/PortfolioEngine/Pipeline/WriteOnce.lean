import PortfolioEngine.Pipeline.Integrity

/-!
# What is stored stays

`update_realized_vol` is an `UPDATE` without a test that the value is still NULL, and its values
are computed from rows that were read two calls earlier. `write_once`: all the same, a realized
volatility that is stored never changes, and neither does anything else that is stored. The rows
that wait for an update have no realized volatility until then, since the loop is the only one that
writes to `forecasts` and a time waits only once.
-/

namespace PortfolioEngine.Pipeline

open Tables Features Forecasting

variable {K : Type*}

/-! ## The rows that wait -/

/-- No realized volatility is stored under the key. -/
def Unfilled (forecasts : List (ForecastRow K)) (key : Symbol × ℤ) : Prop :=
  ∀ r ∈ forecasts, r.key = key → r.realizedVol = none

/-- The times that wait for a realized volatility are distinct and have none. -/
def Inference.Waiting (forecasts : List (ForecastRow K)) : Inference K → Prop
  | .pricing symbol first later _ =>
    (first :: later).Nodup ∧ ∀ t ∈ first :: later, Unfilled forecasts (symbol, t)
  | .updating symbol updates _ =>
    (updates.map Prod.snd).Nodup ∧ ∀ t ∈ updates.map Prod.snd, Unfilled forecasts (symbol, t)
  | _ => True

section Rows

variable {symbol : Symbol} {forecasts : List (ForecastRow K)} {now : ℤ}

theorem nodup_missing (h : (forecasts.map ForecastRow.key).Nodup) (window : ℕ) :
    (fetchForecastsMissingRealized forecasts symbol window now).Nodup := by
  unfold fetchForecastsMissingRealized
  refine ((Backlog.perm_ordered ForecastRow.time _).map _).nodup_iff.mpr ?_
  refine List.Nodup.map_on (fun x hx y hy hxy => ?_) ((h.of_map _).filter _)
  obtain ⟨hx, hxs⟩ := List.mem_filter.mp hx
  obtain ⟨hy, hys⟩ := List.mem_filter.mp hy
  have hsymbol : x.symbol = y.symbol :=
    (of_decide_eq_true hxs).1.trans (of_decide_eq_true hys).1.symm
  exact eq_of_key_eq h hx hy (Prod.ext hsymbol hxy)

theorem unfilled_of_missing (h : (forecasts.map ForecastRow.key).Nodup) {window : ℕ} {t : ℤ}
    (ht : t ∈ fetchForecastsMissingRealized forecasts symbol window now) :
    Unfilled forecasts (symbol, t) := by
  obtain ⟨r, hr, hkey, hnone, _⟩ := mem_missing.mp ht
  intro x hx hxkey
  rw [eq_of_key_eq h hx hr (hxkey.trans hkey.symm)]
  exact hnone

theorem mem_setRealizedVol {update : Flt K × ℤ} {r : ForecastRow K} (hr : r ∈ forecasts)
    (hkey : r.key ≠ (symbol, update.2)) : r ∈ setRealizedVol symbol forecasts update := by
  refine List.mem_map.mpr ⟨r, hr, if_neg fun hc => hkey ?_⟩
  exact Prod.ext hc.2 hc.1

theorem Unfilled.setRealizedVol {update : Flt K × ℤ} {t : ℤ} (h : Unfilled forecasts (symbol, t))
    (ht : t ≠ update.2) : Unfilled (setRealizedVol symbol forecasts update) (symbol, t) := by
  intro r hr hkey
  obtain ⟨x, hx, rfl⟩ := List.mem_map.mp hr
  split_ifs at hkey ⊢ with hc
  · exact absurd ((Prod.mk.inj hkey).2.symm.trans hc.1) ht
  · exact h x hx hkey

variable [Field K] [LinearOrder K]

theorem times_realizedUpdates (P : Numerics K) (pricesDf : List (ℤ × Flt K)) (times : List ℤ) :
    ((realizedUpdates P pricesDf times).map Prod.snd).Sublist times := by
  unfold realizedUpdates
  split_ifs
  · exact List.nil_sublist times
  · dsimp only
    induction times with
    | nil => exact List.Sublist.refl []
    | cons ts times ih =>
      rw [List.filterMap_cons]
      split
      · exact ih.cons ts
      next u hu =>
        obtain ⟨v, _, rfl⟩ := Option.map_eq_some_iff.mp hu
        exact ih.cons_cons ts

end Rows

/-! ## What one event keeps -/

/-- Rows are only added, and a stored value stays. -/
structure Kept (w w' : World K) : Prop where
  prices : w.market.prices <+: w'.market.prices
  features : w.market.features <+: w'.market.features
  predictions : w.forecasts.map ForecastRow.predicted <+: w'.forecasts.map ForecastRow.predicted
  realized : ∀ r ∈ w.forecasts, r.realizedVol.isSome → r ∈ w'.forecasts

theorem Kept.refl (w : World K) : Kept w w :=
  ⟨List.prefix_refl _, List.prefix_refl _, List.prefix_refl _, fun _ hr _ => hr⟩

theorem Kept.trans {w w' w'' : World K} (h : Kept w w') (h' : Kept w' w'') : Kept w w'' :=
  ⟨h.prices.trans h'.prices, h.features.trans h'.features, h.predictions.trans h'.predictions,
    fun r hr hsome => h'.realized r (h.realized r hr hsome) hsome⟩

theorem Kept.same {w w' : World K} (hmarket : w'.market = w.market)
    (hforecasts : w'.forecasts = w.forecasts) : Kept w w' :=
  ⟨by rw [hmarket], by rw [hmarket], by rw [hforecasts], fun _ hr _ => hforecasts ▸ hr⟩

section Steps

variable [Field K] [LinearOrder K] {P : Numerics K} {w w' : World K}

/-- The invariant of the services, and of the rows that wait. -/
structure WaitInv (P : Numerics K) (w : World K) : Prop extends Inv P w where
  waiting : ∀ i ∈ w.inference, i.Waiting w.forecasts

theorem WaitInv.start (P : Numerics K) (t : ℤ) : WaitInv P (World.start t) :=
  ⟨Inv.start P t, by rintro i ⟨⟩⟩

/-- A call keeps what is stored: an update meets a row without a realized volatility. -/
theorem kept_of_calls {bundle : Option (Bundle K)} {i j : Inference K}
    {forecasts : List (ForecastRow K)} (h : WaitInv P w) (hi : w.inference = some i)
    (hcalls : Calls P w bundle i j forecasts) :
    j.Waiting forecasts ∧ Kept w { w with inference := some j, forecasts := forecasts } := by
  have hwaiting := h.waiting i hi
  cases hcalls with
  | finish => exact ⟨trivial, .same rfl rfl⟩
  | skip => exact ⟨trivial, .same rfl rfl⟩
  | nothing => exact ⟨trivial, .same rfl rfl⟩
  | predict => exact ⟨trivial, .same rfl rfl⟩
  | inserted => exact ⟨trivial, .same rfl rfl⟩
  | insert symbol row rows rest =>
    -- `ON CONFLICT DO NOTHING`: the rows before are a prefix of the rows after
    have hpre := prefix_insertNew ForecastRow.key row w.forecasts
    exact ⟨trivial, List.prefix_refl _, List.prefix_refl _, hpre.map _,
      fun r hr _ => hpre.subset hr⟩
  | complete => exact ⟨trivial, .same rfl rfl⟩
  | missing symbol first later rest hmissing =>
    refine ⟨⟨?_, fun t ht => ?_⟩, .same rfl rfl⟩
    · rw [← hmissing]
      exact nodup_missing h.unique forwardWindow
    · rw [← hmissing] at ht
      exact unfilled_of_missing h.unique ht
  | price symbol first later rest =>
    have htimes := times_realizedUpdates P
      (fetchPricesSince (floats w.market.prices) symbol (first - minute)) (first :: later)
    exact ⟨⟨hwaiting.1.sublist htimes, fun t ht => hwaiting.2 t (htimes.subset ht)⟩, .same rfl rfl⟩
  | updated => exact ⟨trivial, .same rfl rfl⟩
  | update symbol update updates rest =>
    obtain ⟨hnodup, hunfilled⟩ := hwaiting
    rw [List.map_cons, List.nodup_cons] at hnodup
    refine ⟨⟨hnodup.2, fun t ht => ?_⟩, List.prefix_refl _, List.prefix_refl _, ?_, ?_⟩
    · refine (hunfilled t (List.mem_cons_of_mem _ ht)).setRealizedVol ?_
      rintro rfl
      exact hnodup.1 ht
    · exact (predicted_updateRealizedVol symbol w.forecasts [update]).symm ▸ List.prefix_refl _
    · intro r hr hsome
      refine mem_setRealizedVol hr fun hkey => ?_
      rw [hunfilled update.2 List.mem_cons_self r hr hkey] at hsome
      cases hsome

theorem WaitInv.step {e : Event K} (h : WaitInv P w) (hstep : step P w e = some w') :
    WaitInv P w' ∧ Kept w w' := by
  have hinv := h.toInv.step hstep
  cases steps_of_step hstep with
  | tick t ht => exact ⟨⟨hinv, h.waiting⟩, .same rfl rfl⟩
  | market e market hm =>
    have hgrows := Restart.grows_step hm
    exact ⟨⟨hinv, h.waiting⟩, hgrows.prices, hgrows.features, List.prefix_refl _, fun r hr _ => hr⟩
  | launch => exact ⟨⟨hinv, by rintro _ ⟨⟩; trivial⟩, .same rfl rfl⟩
  | cycle => exact ⟨⟨hinv, by rintro _ ⟨⟩; trivial⟩, .same rfl rfl⟩
  | call bundle i j forecasts hi hcalls =>
    obtain ⟨hwaiting, hkept⟩ := kept_of_calls h hi hcalls
    exact ⟨⟨hinv, by rintro _ ⟨⟩; exact hwaiting⟩, hkept⟩
  | raise => exact ⟨⟨hinv, by rintro _ ⟨⟩; trivial⟩, .same rfl rfl⟩
  | crash => exact ⟨⟨hinv, by rintro _ ⟨⟩⟩, .same rfl rfl⟩

theorem Reachable.waitInv (h : Reachable P w) : WaitInv P w := by
  obtain ⟨t, hreach⟩ := h
  exact hreach.invariant (WaitInv.start P t) fun s e s' hs hstep => (hs.step hstep).1

/-- What a reachable state has stored, every later state has. -/
theorem kept_of_run {es : List (Event K)} (h : Reachable P w)
    (hrun : Runs.run (step P) w es = some w') : Kept w w' :=
  Runs.run_relation Kept.refl (fun _ _ _ => Kept.trans)
    (fun _ _ _ (hs : WaitInv P _) hstep => hs.step hstep) h.waitInv hrun

/-- **What is stored stays.** From any reachable state, no order of calls and no crash removes or
changes a price, a feature row, a predicted volatility or a realized volatility that is stored. -/
theorem write_once {es : List (Event K)} (h : Reachable P w)
    (hrun : Runs.run (step P) w es = some w') : Kept w w' :=
  kept_of_run h hrun

end Steps

/-- What a turn has stored stays when the cycle ends, a candle comes and both services are
killed. -/
theorem write_once_steady : ∃ w' : World ℝ,
    Runs.run (step realNumerics) (steadyWorld 68 (67 * minute) steadyBundle)
      [.call none, .call none, .call none, .cycle, .market (.xadd (steadyCandle "BTCUSDT" 68)),
        .crash, .market .crash, .launch, .tick (68 * minute)] = some w' ∧
    (∃ r ∈ w'.forecasts, r.realizedVol.isSome) ∧
    Kept (steadyWorld 68 (67 * minute) steadyBundle) w' := by
  obtain ⟨w', hrun⟩ : ∃ w', Runs.run (step realNumerics)
      (steadyWorld 68 (67 * minute) steadyBundle)
      [.call none, .call none, .call none, .cycle, .market (.xadd (steadyCandle "BTCUSDT" 68)),
        .crash, .market .crash, .launch, .tick (68 * minute)] = some w' := ⟨_, rfl⟩
  have hkept := write_once (reachable_steadyWorld _ _ _) hrun
  obtain ⟨r, hr, hsome⟩ := exists_realized_steady steadyBundle
  exact ⟨w', hrun, ⟨r, hkept.realized r hr hsome, hsome⟩, hkept⟩

end PortfolioEngine.Pipeline
